import ShardedQuery.Proofs.Cluster.Index
import ShardedQuery.Proofs.Routing.Found

/-!
# Configured indices

An index is made with a number of shards and then configured setting by setting.  Whatever settings
are accepted, the slots stay a multiple of the shards, and every hash has one of them.

* `Index.Setting`, `Index.configure` — an index with some settings, the later ones counting.
* `Index.exists_configure_iff` — which settings are accepted; it does not depend on their order.
* `Index.exists_hash_of_slot` — each slot is the remainder of some hash, although hashes are signed
  and there may be more slots than hashes of either sign.
* `Index.configure_spreads` — **all hashes have a shard and all shards have a hash**, so no routing
  value is ever looked up in vain.
-/

namespace ShardedQuery

namespace Index

/-! ### Settings -/

/-- One step in configuring an index. -/
inductive Setting where
  | slots (n : UInt32)
  | partitionSize (n : UInt32)
  | hash (function : RoutingHash)
  | policy (policy : SlotPolicy)
deriving DecidableEq, Repr

/-- The index with a setting. -/
def set (index : Index) : Setting → Except Fault Index
  | .slots n => index.withSlots n
  | .partitionSize n => index.withPartitionSize n
  | .hash function => .ok { index with hash := function }
  | .policy policy => .ok { index with policy }

/-- The index of a name with this many shards and with some settings, one after the other. -/
def configure (name : String) (shards : UInt32) (settings : List Setting) : Except Fault Index := do
  let index ← create name shards
  settings.foldlM set index

/-- Whether a setting is accepted for an index with this many shards. -/
def Setting.Suits (shards : UInt32) : Setting → Prop
  | slots n => 0 < n.toNat ∧ shards.toNat ∣ n.toNat
  | partitionSize n => 0 < n.toNat
  | hash _ | policy _ => True

/-- A setting is accepted exactly if it suits the shards. -/
theorem exists_set_iff (index : Index) (setting : Setting) :
    (∃ index', index.set setting = .ok index') ↔ setting.Suits index.shards := by
  cases setting with
  | slots n =>
    show (∃ index', index.withSlots n = .ok index') ↔ 0 < n.toNat ∧ index.shards.toNat ∣ n.toNat
    unfold withSlots
    split <;> simp [*]
  | partitionSize n =>
    show (∃ index', index.withPartitionSize n = .ok index') ↔ 0 < n.toNat
    unfold withPartitionSize
    split <;> simp [*]
  | hash | policy => simp [set, Setting.Suits]

/-- No setting changes the shards. -/
theorem shards_set {index index' : Index} {setting : Setting}
    (h : index.set setting = .ok index') : index'.shards = index.shards := by
  cases setting with
  | slots n =>
    change index.withSlots n = .ok index' at h
    unfold withSlots at h
    split at h <;> cases h
    rfl
  | partitionSize n =>
    change index.withPartitionSize n = .ok index' at h
    unfold withPartitionSize at h
    split at h <;> cases h
    rfl
  | hash | policy =>
    cases h
    rfl

theorem shards_foldlM_set {index index' : Index} {settings : List Setting}
    (h : settings.foldlM set index = .ok index') : index'.shards = index.shards := by
  induction settings generalizing index with
  | nil =>
    cases h
    rfl
  | cons setting settings ih =>
    rw [List.foldlM_cons, except_bind_eq_ok] at h
    obtain ⟨next, hnext, h⟩ := h
    rw [ih h, shards_set hnext]

theorem exists_foldlM_set_iff (index : Index) (settings : List Setting) :
    (∃ index', settings.foldlM set index = .ok index') ↔
      ∀ setting ∈ settings, setting.Suits index.shards := by
  induction settings generalizing index with
  | nil => simp [pure, Except.pure]
  | cons setting settings ih =>
    rw [List.forall_mem_cons, ← exists_set_iff]
    simp only [List.foldlM_cons, except_bind_eq_ok]
    constructor
    · rintro ⟨index', next, hnext, h⟩
      rw [← shards_set hnext]
      exact ⟨⟨next, hnext⟩, (ih next).mp ⟨index', h⟩⟩
    · rintro ⟨⟨next, hnext⟩, hsuits⟩
      rw [← shards_set hnext] at hsuits
      obtain ⟨index', h⟩ := (ih next).mpr hsuits
      exact ⟨index', next, hnext, h⟩

theorem shards_configure {name : String} {shards : UInt32} {settings : List Setting} {index : Index}
    (h : configure name shards settings = .ok index) : index.shards = shards := by
  obtain ⟨start, hstart, h⟩ := except_bind_eq_ok.mp h
  rw [shards_foldlM_set h]
  unfold create at hstart
  split at hstart <;> cases hstart
  rfl

/-- **An index can be configured exactly if it has a shard and each setting suits its shards.** -/
theorem exists_configure_iff (name : String) (shards : UInt32) (settings : List Setting) :
    (∃ index, configure name shards settings = .ok index) ↔
      0 < shards.toNat ∧ ∀ setting ∈ settings, setting.Suits shards := by
  unfold configure create
  split
  · rename_i hpos
    rw [and_iff_right hpos]
    exact exists_foldlM_set_iff _ settings
  · rename_i hpos
    simp [hpos, bind, Except.bind]

/-! ### Hashes of slots -/

/-- **Each slot is the remainder of some hash.**  The first half of the slots are hashes themselves;
from the others one turn is taken off, which gives a negative hash. -/
theorem exists_hash_of_slot (index : Index) (hpolicy : index.policy = .floorMod) {slot : Nat}
    (hslot : slot < index.slots.toNat) : ∃ hash, index.slotOfHash hash = slot := by
  by_cases hsmall : slot < 2 ^ 31
  · exact ⟨Int32.ofNat slot, index.slotOfHash_ofNat hsmall hslot⟩
  · have hbound : index.slots.toNat < 2 ^ 32 := index.slots.toNat_lt
    refine ⟨Int32.ofInt (slot - index.slots.toNat : Int), ?_⟩
    have hint : (Int32.ofInt (slot - index.slots.toNat : Int)).toInt =
        (slot - index.slots.toNat : Int) := by
      rw [Int32.toInt_ofInt_of_le] <;> omega
    have hturn : (slot - index.slots.toNat : Int) % index.slots.toNat = slot := by
      rw [Int.sub_emod_right, Int.emod_eq_of_lt (by omega) (by omega)]
    unfold slotOfHash
    rw [hpolicy, hint]
    simp only [hturn, Int.toNat_natCast]

theorem exists_hash_of_shard (index : Index) (hpolicy : index.policy = .floorMod) {shard : UInt32}
    (hshard : shard < index.shards) : ∃ hash, index.shardOfHash hash = shard := by
  have hpos := index.slotsPerShard_pos
  have hlt : shard.toNat * index.slotsPerShard.toNat < index.slots.toNat := by
    rw [← shards_mul_slotsPerShard]
    exact Nat.mul_lt_mul_of_pos_right hshard hpos
  obtain ⟨hash, hhash⟩ := index.exists_hash_of_slot hpolicy hlt
  refine ⟨hash, UInt32.toNat_inj.mp ?_⟩
  rw [toNat_shardOfHash, hhash, Nat.mul_div_cancel _ hpos]

theorem shardOfHash_lt_shards (index : Index) (hash : Int32) :
    index.shardOfHash hash < index.shards :=
  UInt32.lt_iff_toNat_lt.mpr (index.shardOfHash_lt hash)

/-! ### Shards of a configured index -/

/-- **However an index is configured, its hashes and its shards fit together.**

* The slots are a positive multiple of the shards.
* Every hash, and so every routing value with any offset, has one of the shards.
* By the first policy each shard has a hash.
* A routing never fails for want of a shard of an index whose table has its shards. -/
theorem configure_spreads {name : String} {shards : UInt32} {settings : List Setting}
    {index : Index} (h : configure name shards settings = .ok index) :
    (1 ≤ index.slotsPerShard.toNat ∧
      shards.toNat * index.slotsPerShard.toNat = index.slots.toNat) ∧
    (∀ hash, index.shardOfHash hash < shards) ∧
    (∀ value offset, index.shardOf value offset < shards) ∧
    (index.policy = .floorMod → ∀ shard < shards, ∃ hash, index.shardOfHash hash = shard) ∧
    ∀ (cluster : Cluster) awareness seed indices values ignoreMissing key table,
      cluster.indices[key]? = some index → cluster.tables[key]? = some table →
      (∀ shard < shards, shard ∈ table.copies) →
      ∀ shard, Routing.ofIndices cluster awareness seed indices values ignoreMissing ≠
        .error (.shardNotFound key shard) := by
  have hshards := shards_configure h
  subst hshards
  refine ⟨⟨index.slotsPerShard_pos, index.shards_mul_slotsPerShard⟩, index.shardOfHash_lt_shards,
    fun value offset => index.shardOfHash_lt_shards _,
    fun hpolicy shard hshard => index.exists_hash_of_shard hpolicy hshard, ?_⟩
  intro cluster awareness seed indices values ignoreMissing key table hindex htable hall shard
    hfails
  obtain ⟨table', index', value, offset, htable', hindex', hshard, habsent⟩ :=
    Routing.exists_missing_of_ofIndices hfails
  rw [htable] at htable'
  rw [hindex] at hindex'
  cases htable'
  cases hindex'
  refine habsent (hall shard ?_)
  rw [← hshard]
  exact index.shardOfHash_lt_shards _

/-- Three shards with more slots than there are hashes that are not negative. -/
def manySlots : Index where
  name := "t"
  shards := 3
  slots := 4294967295
  partitionSize := 2
  hash := .djb
  policy := .floorMod
  shards_pos := by decide
  shards_dvd := by decide
  slots_pos := by decide
  partitionSize_pos := by decide

/-- The table of this index: all shards are on one node. -/
def manySlotsTable : ShardTable :=
  [0, 1, 2].foldl (fun table shard => table.add shard ⟨some "n1", true, .started⟩) {}

/-- The last shard of the index has a hash, and a routing value is looked up in its table without a
shard missing. -/
theorem configure_spreads_manySlots :
    let settings : List Setting := [.slots 4294967295, .partitionSize 2, .hash .djb]
    let cluster := (Cluster.mk ⟨"n1", ∅⟩ ∅ ∅).withIndex manySlots "t" manySlotsTable
    let values := (∅ : RoutingValues).insert "t" (.ofList ["berlin"])
    configure "t" 3 settings = .ok manySlots ∧
      3 * manySlots.slotsPerShard.toNat = 4294967295 ∧
      (∃ hash, manySlots.shardOfHash hash = 2) ∧
      ∀ shard, Routing.ofIndices cluster [] 0 ["t"] values false ≠
        .error (.shardNotFound "t" shard) := by
  intro settings cluster values
  have hconfigure : configure "t" 3 settings = .ok manySlots := rfl
  obtain ⟨⟨-, hslots⟩, -, -, hreached, hrouted⟩ := configure_spreads hconfigure
  refine ⟨hconfigure, hslots, hreached rfl 2 (by decide), ?_⟩
  refine hrouted cluster [] 0 ["t"] values false "t" manySlotsTable
    Std.TreeMap.getElem?_insert_self Std.TreeMap.getElem?_insert_self ?_
  intro shard hshard
  have hthree : shard = 0 ∨ shard = 1 ∨ shard = 2 := by
    have hlt : shard.toNat < 3 := hshard
    simp only [← UInt32.toNat_inj, UInt32.reduceToNat]
    omega
  rcases hthree with rfl | rfl | rfl <;> decide +kernel

end Index

end ShardedQuery
