import ShardedQuery.Proofs.Planning.Outcomes
import ShardedQuery.Proofs.Routing.Cover

/-!
# Routings that are found

A routing is found in two passes over what is asked for: the first looks each shard up in the table
of its index, the second picks a copy of each.  What stands in the way of a routing is therefore a
fault of the first kind or of the second, and a routing that is found reads what was asked for.

* `Routing.Reaches` — some node reads a shard of an index.
* `Routing.reaches_of_ofIndices` — **a routing that is found reaches every targeted shard**, those
  without a readable copy apart if they may be left out.
* `Routing.exists_missing_of_ofIndices` — a shard that is not found is missing in the table of an
  index that puts documents of some routing value there.
-/

namespace ShardedQuery

section Faults

variable {ε α : Type}

theorem orFault_eq_ok {fault? : Option ε} {a b : α} :
    orFault fault? a = .ok b ↔ fault? = none ∧ a = b := by
  cases fault? <;> simp [orFault]

theorem orFault_eq_error {fault? : Option ε} {a : α} {e : ε} :
    orFault fault? a = .error e ↔ fault? = some e := by
  cases fault? <;> simp [orFault]

end Faults

namespace Routing

/-- A shard of an index is read on some node. -/
def Reaches (r : Routing) (name : String) (shard : UInt32) : Prop :=
  ∃ node, shard ∈ r.shards node name

variable {cluster : Cluster} {awareness : List String} {seed : Int32} {indices : List String}
  {values : RoutingValues} {ignoreMissing : Bool}

theorem foldlM_readShard (r : Routing) (groups : List ShardGroup) :
    groups.foldlM (readShard seed ignoreMissing) r =
      orFault (groups.findSome? (unreadable? seed ignoreMissing))
        (groups.foldl (readOne seed) r) := by
  have hstep : readShard seed ignoreMissing = fun r g =>
      orFault (unreadable? seed ignoreMissing g) (readOne seed r g) :=
    funext fun r => funext fun g => readShard_eq ignoreMissing g
  rw [hstep, foldlM_orFault]

/-! ### Success -/

/-- A routing that is found has gone through the targets, and nothing stood in the way. -/
theorem eq_readAll_of_ofIndices {r : Routing}
    (h : ofIndices cluster awareness seed indices values ignoreMissing = .ok r) :
    r = readAll cluster (cluster.targeted values indices) seed ∧
      (∀ name ∈ indices, cluster.fault? values name = none) ∧
      (ignoreMissing = false →
        ∀ target ∈ cluster.targeted values indices, cluster.isReadable target = true) := by
  unfold ofIndices at h
  split at h
  · simp only [targets_eq, foldlM_readShard, except_bind_eq_ok, orFault_eq_ok,
      except_pure_eq_ok] at h
    obtain ⟨_, ⟨hfaults, rfl⟩, _, ⟨hreadable, rfl⟩, rfl⟩ := h
    refine ⟨rfl, List.findSome?_eq_none_iff.mp hfaults, ?_⟩
    rintro rfl target htarget
    rw [findSome?_unreadable, if_neg Bool.false_ne_true, Option.map_eq_none_iff,
      List.find?_eq_none] at hreadable
    simpa using hreadable target htarget
  · cases h

/-- **A routing that is found reaches every targeted shard**, unless no copy of it is readable and
such shards are left out. -/
theorem reaches_of_ofIndices {r : Routing} {name : String} {shard : UInt32}
    (h : ofIndices cluster awareness seed indices values ignoreMissing = .ok r)
    (htarget : (name, shard) ∈ cluster.targeted values indices)
    (hreadable : ignoreMissing = true → cluster.isReadable (name, shard) = true) :
    r.Reaches name shard := by
  obtain ⟨rfl, -, hall⟩ := eq_readAll_of_ofIndices h
  have hread : cluster.isReadable (name, shard) = true := by
    cases ignoreMissing with
    | false => exact hall rfl _ htarget
    | true => exact hreadable rfl
  have hmem := (mem_map_reads_readAll cluster _ seed).mpr ⟨htarget, hread⟩
  obtain ⟨⟨node, name', shard'⟩, hreads, heq⟩ := List.mem_map.mp hmem
  cases heq
  exact ⟨node, mem_reads.mp hreads⟩

/-- **A routing that is found for a routing value reaches the shard of each offset.** -/
theorem reaches_shardOf {r : Routing} {name value : String} {index : Index}
    {routing : Std.TreeSet String} {offset : UInt32}
    (h : ofIndices cluster awareness seed indices values ignoreMissing = .ok r)
    (hname : name ∈ indices) (hindex : cluster.indices[name]? = some index)
    (hvalues : values[name]? = some routing) (hvalue : value ∈ routing)
    (hoffset : offset < index.partitionSize)
    (hreadable : ignoreMissing = true →
      cluster.isReadable (name, index.shardOf value offset) = true) :
    r.Reaches name (index.shardOf value offset) := by
  refine reaches_of_ofIndices h ?_ hreadable
  obtain ⟨-, hfaults, -⟩ := eq_readAll_of_ofIndices h
  cases htable : cluster.tables[name]? with
  | none =>
    have hfault := hfaults name hname
    simp [Cluster.fault?, htable] at hfault
  | some table =>
    refine List.mem_flatMap.mpr ⟨name, hname, List.mem_map.mpr ⟨_, ?_, rfl⟩⟩
    simp only [Cluster.asked, htable, hindex, hvalues, ShardTable.asked, List.mem_flatMap,
      List.mem_map, List.mem_range]
    exact ⟨value, Std.TreeSet.mem_toList.mpr hvalue, offset.toNat, hoffset,
      by rw [UInt32.ofNat_toNat]⟩

/-! ### Failure -/

/-- **A shard that is not found is missing in the table of its index**, which puts documents of some
routing value there. -/
theorem exists_missing_of_ofIndices {name : String} {shard : UInt32}
    (h : ofIndices cluster awareness seed indices values ignoreMissing =
      .error (.shardNotFound name shard)) :
    ∃ table index value offset, cluster.tables[name]? = some table ∧
      cluster.indices[name]? = some index ∧ index.shardOf value offset = shard ∧
      shard ∉ table.copies := by
  have hfault : ∃ name' ∈ indices,
      cluster.fault? values name' = some (.shardNotFound name shard) := by
    unfold ofIndices at h
    split at h
    · simp only [targets_eq, foldlM_readShard, except_bind_eq_error, orFault_eq_error] at h
      rcases h with hfault | ⟨_, -, hread | ⟨_, -, h⟩⟩
      · exact List.exists_of_findSome?_eq_some hfault
      · -- a shard without a readable copy is another fault
        obtain ⟨g, -, hg⟩ := List.exists_of_findSome?_eq_some hread
        simp [unreadable?] at hg
      · cases h
    · cases h
  obtain ⟨name', -, hfault⟩ := hfault
  unfold Cluster.fault? at hfault
  split at hfault
  · rename_i table index htable hindex
    obtain ⟨asked, hasked, hmissing⟩ := List.exists_of_findSome?_eq_some hfault
    unfold ShardTable.missing? at hmissing
    split at hmissing
    · cases hmissing
    · rename_i habsent
      cases hmissing
      refine ⟨table, index, ?_⟩
      unfold ShardTable.asked at hasked
      cases hvalues : values[name]? with
      | none =>
        rw [hvalues] at hasked
        exact absurd (Std.TreeMap.mem_keys.mp hasked) habsent
      | some routing =>
        simp only [hvalues, List.mem_flatMap, List.mem_map] at hasked
        obtain ⟨value, -, offset, -, hshard⟩ := hasked
        exact ⟨value, UInt32.ofNat offset, htable, hindex, hshard, habsent⟩
  · cases hfault

end Routing

end ShardedQuery
