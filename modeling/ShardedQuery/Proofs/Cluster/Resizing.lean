import ShardedQuery.Proofs.Cluster.Index
import ShardedQuery.Proofs.Routing.Found

/-!
# Resized indices

An index is shrunk or split by folding the same slots into another number of shards.  The slot of a
document stays, so its shard after the resize follows from its shard before.

* `Index.FoldsInto` — the shards of one index are folded, so many at a time, into those of another.
* `Index.toNat_shardOfHash_folded` — **the shard of a hash is folded with the others**, whatever the
  hash and by both policies.
* `Index.IsReadFor` — a routing for a routing value does not miss the shard.
* `Index.shardOf_folded` — **documents move between a shard and the one it is folded into**, and are
  read there.

The partition sizes of the two may differ.  A document of an index has an offset below the partition
size of that index.
-/

namespace ShardedQuery.Index

/-- The shards of an index are folded, `k` at a time, into the shards of another. -/
structure FoldsInto (large small : Index) (k : Nat) : Prop where
  slots : large.slots = small.slots
  hash : large.hash = small.hash
  policy : large.policy = small.policy
  shards : large.shards.toNat = k * small.shards.toNat

variable {large small : Index} {k : Nat}

namespace FoldsInto

theorem pos (h : large.FoldsInto small k) : 0 < k := by
  have hpos := large.shards_pos
  rw [h.shards] at hpos
  exact Nat.pos_of_mul_pos_right hpos

/-- So many times more slots are folded into each shard. -/
theorem toNat_slotsPerShard (h : large.FoldsInto small k) :
    small.slotsPerShard.toNat = k * large.slotsPerShard.toNat := by
  have hsmall := small.shards_mul_slotsPerShard
  have hlarge := large.shards_mul_slotsPerShard
  rw [h.slots, h.shards, ← hsmall] at hlarge
  refine Nat.eq_of_mul_eq_mul_left small.shards_pos ?_
  rw [← hlarge]
  ring

/-- The slot of a hash stays. -/
theorem slotOfHash_eq (h : large.FoldsInto small k) (hash : Int32) :
    large.slotOfHash hash = small.slotOfHash hash := by
  unfold slotOfHash
  rw [h.policy, h.slots]

end FoldsInto

/-- **The shard of a hash is folded with the others.** -/
theorem toNat_shardOfHash_folded (h : large.FoldsInto small k) (hash : Int32) :
    (small.shardOfHash hash).toNat = (large.shardOfHash hash).toNat / k := by
  rw [toNat_shardOfHash, toNat_shardOfHash, h.slotOfHash_eq, h.toNat_slotsPerShard, Nat.mul_comm,
    Nat.div_div_eq_div_mul]

theorem toNat_shardOf_folded (h : large.FoldsInto small k) (value : String) (offset : UInt32) :
    (small.shardOf value offset).toNat = (large.shardOf value offset).toNat / k := by
  unfold shardOf
  rw [h.hash]
  exact toNat_shardOfHash_folded h _

/-- Every routing that is found for a routing value of the index reads the shard, unless that has no
readable copy and such shards are left out. -/
def IsReadFor (index : Index) (value : String) (shard : UInt32) : Prop :=
  ∀ (cluster : Cluster) awareness seed indices values ignoreMissing r name routing,
    cluster.indices[name]? = some index → name ∈ indices →
    values[name]? = some routing → value ∈ routing →
    Routing.ofIndices cluster awareness seed indices values ignoreMissing = .ok r →
    (ignoreMissing = true → cluster.isReadable (name, shard) = true) → r.Reaches name shard

theorem isReadFor_shardOf (index : Index) (value : String) {offset : UInt32}
    (hoffset : offset < index.partitionSize) :
    index.IsReadFor value (index.shardOf value offset) := by
  intro cluster awareness seed indices values ignoreMissing r name routing hindex hname hvalues
    hvalue h hreadable
  exact Routing.reaches_shardOf h hname hindex hvalues hvalue hoffset hreadable

/-- **The shard of a document survives a resize.**  Of two indices, one of which has `k` shards for
each shard of the other:

* the shard of every hash, and so that of every routing value with any offset, is folded with
  `k - 1` others;
* a document is on a shard of the one exactly if it is on one of the `k` shards of the other that
  are folded into it;
* after shrinking, a routing for a value reads the shard that a document with it was moved to;
* after splitting, a routing for a value reads the one of the `k` shards that received the
  document.

The document has an offset that the index gives to documents after the resize. -/
theorem shardOf_folded (h : large.FoldsInto small k) :
    (∀ hash, (small.shardOfHash hash).toNat = (large.shardOfHash hash).toNat / k) ∧
    (∀ value offset,
      (small.shardOf value offset).toNat = (large.shardOf value offset).toNat / k) ∧
    (∀ value offset shard, small.shardOf value offset = shard ↔
      k * shard.toNat ≤ (large.shardOf value offset).toNat ∧
        (large.shardOf value offset).toNat < k * (shard.toNat + 1)) ∧
    (∀ value offset, offset < small.partitionSize →
      ∀ shard, shard.toNat = (large.shardOf value offset).toNat / k →
        small.IsReadFor value shard) ∧
    ∀ value offset, offset < large.partitionSize →
      ∃ shard, large.shardOf value offset = shard ∧
        shard.toNat / k = (small.shardOf value offset).toNat ∧ large.IsReadFor value shard := by
  refine ⟨toNat_shardOfHash_folded h, toNat_shardOf_folded h, ?_, ?_, ?_⟩
  · intro value offset shard
    rw [← UInt32.toNat_inj, toNat_shardOf_folded h, Nat.div_eq_iff h.pos, Nat.mul_comm k,
      Nat.mul_comm k, Nat.add_mul, Nat.one_mul]
    have hpos := h.pos
    omega
  · intro value offset hoffset shard hshard
    rw [← toNat_shardOf_folded h, UInt32.toNat_inj] at hshard
    rw [hshard]
    exact small.isReadFor_shardOf value hoffset
  · intro value offset hoffset
    exact ⟨_, rfl, (toNat_shardOf_folded h value offset).symm,
      large.isReadFor_shardOf value hoffset⟩

/-- Eight slots in four shards. -/
def quarters : Index where
  name := "t"
  shards := 4
  slots := 8
  partitionSize := 1
  hash := .djb
  policy := .legacyAbsMod
  shards_pos := by decide
  shards_dvd := by decide
  slots_pos := by decide
  partitionSize_pos := Nat.zero_lt_one

/-- The same slots in two shards, where routing values are spread over five hashes. -/
def halves : Index :=
  { quarters with
    shards := 2
    partitionSize := 5
    shards_pos := Nat.zero_lt_two
    shards_dvd := by decide
    partitionSize_pos := by decide }

/-- Four shards are shrunk to two: the least hash, a hash that wraps around, and a routing for one
value. -/
theorem shardOf_folded_halves :
    let table := [0, 1].foldl (fun t shard => t.add shard ⟨some "n1", true, .started⟩) {}
    let cluster := (Cluster.mk ⟨"n1", ∅⟩ ∅ ∅).withIndex halves "t" table
    let values := (∅ : RoutingValues).insert "t" (.ofList ["berlin"])
    quarters.FoldsInto halves 2 ∧
      (halves.shardOfHash (-2147483648)).toNat = (quarters.shardOfHash (-2147483648)).toNat / 2 ∧
      (halves.shardOf "berlin" 4294967295).toNat =
        (quarters.shardOf "berlin" 4294967295).toNat / 2 ∧
      ∃ r, Routing.ofIndices cluster [] 0 ["t"] values false = .ok r ∧
        ∀ shard, shard.toNat = (quarters.shardOf "berlin" 2).toNat / 2 → r.Reaches "t" shard := by
  intro table cluster values
  have hfolds : quarters.FoldsInto halves 2 := ⟨rfl, rfl, rfl, rfl⟩
  obtain ⟨hhash, hvalue, -, hread, -⟩ := shardOf_folded hfolds
  refine ⟨hfolds, hhash _, hvalue _ _, ?_⟩
  have hfound : (Routing.ofIndices cluster [] 0 ["t"] values false).isOk = true := by
    decide +kernel
  cases hrouted : Routing.ofIndices cluster [] 0 ["t"] values false with
  | error e =>
    rw [hrouted] at hfound
    cases hfound
  | ok r =>
    refine ⟨r, rfl, fun shard hshard => ?_⟩
    exact hread "berlin" 2 (by decide) shard hshard cluster [] 0 ["t"] values false r "t" _
      Std.TreeMap.getElem?_insert_self List.mem_cons_self Std.TreeMap.getElem?_insert_self
      (by decide +kernel) hrouted (fun h => nomatch h)

end ShardedQuery.Index
