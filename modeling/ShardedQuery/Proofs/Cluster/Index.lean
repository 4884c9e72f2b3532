import ShardedQuery.Cluster.Index
import ShardedQuery.Proofs.Hash.Routing

/-!
# Slots and shards

The slots of an index fold evenly into its shards, so every hash has a shard.  Consecutive hashes
have neighbouring slots, and somewhere a slot and the next one are on different shards.

* `Index.slotOfHash_lt`, `Index.shardOfHash_lt` — the slot and the shard of a hash exist;
* `Index.GathersValues` — the documents of a routing value are on one shard;
* `Index.gathersValues_iff` — an index does that exactly if it does not spread a value over several
  hashes, or has only one shard to spread it over.
-/

namespace ShardedQuery.Index

variable (index : Index)

/-! ### Slots -/

theorem toNat_slotsPerShard :
    index.slotsPerShard.toNat = index.slots.toNat / index.shards.toNat :=
  UInt32.toNat_div _ _

theorem shards_mul_slotsPerShard :
    index.shards.toNat * index.slotsPerShard.toNat = index.slots.toNat := by
  rw [toNat_slotsPerShard, Nat.mul_div_cancel' index.shards_dvd]

theorem slotsPerShard_pos : 0 < index.slotsPerShard.toNat := by
  have hpos := index.slots_pos
  rw [← shards_mul_slotsPerShard] at hpos
  exact Nat.pos_of_mul_pos_left hpos

theorem slotOfHash_lt (hash : Int32) : index.slotOfHash hash < index.slots.toNat := by
  have hpos := index.slots_pos
  unfold slotOfHash
  cases index.policy with
  | floorMod =>
    have hnonneg := Int.emod_nonneg hash.toInt (b := index.slots.toNat) (by omega)
    have hlt := Int.emod_lt_of_pos hash.toInt (b := index.slots.toNat) (by omega)
    simp only
    omega
  | legacyAbsMod =>
    simp only [Int.natAbs_tmod, Int.natAbs_natCast]
    exact Nat.mod_lt _ hpos

/-- A hash that is a slot is its own slot, by both policies. -/
theorem slotOfHash_ofNat {n : Nat} (hsmall : n < 2 ^ 31) (hslot : n < index.slots.toNat) :
    index.slotOfHash (Int32.ofNat n) = n := by
  have hint : (Int32.ofNat n).toInt = n := Int32.toInt_ofNat_of_lt hsmall
  unfold slotOfHash
  rw [hint]
  cases index.policy with
  | floorMod =>
    have hmod : (n : Int) % index.slots.toNat = n := Int.emod_eq_of_lt (by omega) (by omega)
    simp [hmod]
  | legacyAbsMod =>
    have hmod : (n : Int).tmod index.slots.toNat = n := Int.tmod_eq_of_lt (by omega) (by omega)
    simp [hmod]

/-! ### Shards -/

theorem slot_div_lt {slot : Nat} (h : slot < index.slots.toNat) :
    slot / index.slotsPerShard.toNat < index.shards.toNat := by
  rw [Nat.div_lt_iff_lt_mul index.slotsPerShard_pos, shards_mul_slotsPerShard]
  exact h

theorem toNat_shardOfHash (hash : Int32) :
    (index.shardOfHash hash).toNat = index.slotOfHash hash / index.slotsPerShard.toNat := by
  have hlt := (index.slot_div_lt (index.slotOfHash_lt hash)).trans index.shards.toNat_lt
  rw [shardOfHash, UInt32.toNat_ofNat', Nat.mod_eq_of_lt hlt]

theorem shardOfHash_lt (hash : Int32) : (index.shardOfHash hash).toNat < index.shards.toNat := by
  rw [toNat_shardOfHash]
  exact index.slot_div_lt (index.slotOfHash_lt hash)

/-! ### Documents of one routing value -/

/-- The documents of each routing value are on one shard, whatever their offsets. -/
def GathersValues : Prop :=
  ∀ (value : String) (o₁ o₂ : UInt32), o₁ < index.partitionSize → o₂ < index.partitionSize →
    index.shardOf value o₁ = index.shardOf value o₂

/-- Where there are several shards, the last slot of the first one is followed by a slot of the
second, and some routing value has the hash of that slot. -/
theorem exists_shardOf_ne (h : 1 < index.shards.toNat) :
    ∃ value, index.shardOf value 0 ≠ index.shardOf value 1 := by
  have hpos := index.slotsPerShard_pos
  have hslots := index.shards_mul_slotsPerShard
  have htwo : 2 * index.slotsPerShard.toNat ≤ index.slots.toNat := by
    rw [← hslots]
    exact Nat.mul_le_mul_right _ h
  have hbound : index.slots.toNat < 2 ^ 32 := index.slots.toNat_lt
  obtain ⟨value, hvalue⟩ :=
    index.hash.hash_surjective (Int32.ofNat (index.slotsPerShard.toNat - 1))
  have hnext : Int32.ofNat (index.slotsPerShard.toNat - 1) + UInt32.toInt32 1 =
      Int32.ofNat index.slotsPerShard.toNat := by
    conv_rhs => rw [← Nat.sub_add_cancel hpos, Int32.ofNat_add]
    rfl
  have hfirst : (index.shardOf value 0).toNat = 0 := by
    have hzero : index.hash.hash value + UInt32.toInt32 0 = index.hash.hash value :=
      Int32.add_zero _
    rw [shardOf, hzero, hvalue, toNat_shardOfHash,
      slotOfHash_ofNat index (by omega) (by omega)]
    exact Nat.div_eq_of_lt (by omega)
  have hsecond : (index.shardOf value 1).toNat = 1 := by
    rw [shardOf, hvalue, hnext, toNat_shardOfHash, slotOfHash_ofNat index (by omega) (by omega)]
    exact Nat.div_self hpos
  refine ⟨value, fun heq => ?_⟩
  rw [heq, hsecond] at hfirst
  exact absurd hfirst (by decide)

/-- **An index gathers the documents of each routing value on one shard exactly if it does not
spread them over several hashes or has a single shard.** -/
theorem gathersValues_iff :
    index.GathersValues ↔ index.partitionSize = 1 ∨ index.shards = 1 := by
  have hpartition := index.partitionSize_pos
  have hshards := index.shards_pos
  simp only [← UInt32.toNat_inj, UInt32.toNat_one]
  constructor
  · intro h
    by_contra hneither
    obtain ⟨value, hne⟩ := index.exists_shardOf_ne (by omega)
    refine hne (h value 0 1 ?_ ?_)
    · simpa [UInt32.lt_iff_toNat_lt] using hpartition
    · rw [UInt32.lt_iff_toNat_lt, UInt32.toNat_one]
      omega
  · rintro (hone | hone) value o₁ o₂ h₁ h₂
    · rw [UInt32.lt_iff_toNat_lt] at h₁ h₂
      have ho : o₁ = o₂ := UInt32.toNat_inj.mp (by omega)
      rw [ho]
    · have hs₁ := index.shardOfHash_lt (index.hash.hash value + o₁.toInt32)
      have hs₂ := index.shardOfHash_lt (index.hash.hash value + o₂.toInt32)
      exact UInt32.toNat_inj.mp (by rw [shardOf, shardOf]; omega)

end ShardedQuery.Index
