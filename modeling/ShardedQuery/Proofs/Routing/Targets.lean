import Mathlib.Data.List.Basic
import ShardedQuery.Routing.Resolve

/-!
# The shards that a routing targets

Which shards a routing has to read follows from the indices and the routing values alone, and so
does the first thing that is wrong with them.

* `orFault` — a result, or the fault that stands in its way; computations that go through a list
  stop at the first fault (`mapM_orFault`, `foldlM_orFault`).
* `Cluster.targeted` — the targeted shards in the order they are asked for, with repetitions.
* `Cluster.fault?` — what is wrong with an index, or with the shards asked for of it.
* `Routing.targets_eq` — **the targets are the targeted shards, each once**, unless there is a fault;
  then the first one is the error.
-/

namespace ShardedQuery

/-! ### Stopping at the first fault -/

section Faults

variable {ε α β σ : Type}

/-- A result, or the fault that stands in its way. -/
def orFault (fault? : Option ε) (a : α) : Except ε α :=
  match fault? with
  | some e => .error e
  | none => .ok a

theorem orFault_bind (fault? : Option ε) (a : α) (fault'? : α → Option ε) (f : α → β) :
    (orFault fault? a >>= fun a => orFault (fault'? a) (f a)) =
      orFault (fault?.or (fault'? a)) (f a) := by
  cases fault? <;> rfl

theorem orFault_map (fault? : Option ε) (a : α) (f : α → β) :
    (orFault fault? a >>= fun a => pure (f a)) = orFault fault? (f a) := by
  cases fault? <;> rfl

theorem mapM_orFault (fault? : α → Option ε) (f : α → β) (xs : List α) :
    xs.mapM (fun x => orFault (fault? x) (f x)) = orFault (xs.findSome? fault?) (xs.map f) := by
  induction xs with
  | nil => rfl
  | cons x xs ih =>
    rw [List.mapM_cons, ih, List.findSome?_cons]
    cases hx : fault? x with
    | some e => rfl
    | none => cases hxs : xs.findSome? fault? <;> rfl

theorem foldlM_orFault (fault? : α → Option ε) (f : σ → α → σ) (s : σ) (xs : List α) :
    xs.foldlM (fun s x => orFault (fault? x) (f s x)) s =
      orFault (xs.findSome? fault?) (xs.foldl f s) := by
  induction xs generalizing s with
  | nil => rfl
  | cons x xs ih =>
    rw [List.foldlM_cons, List.findSome?_cons]
    cases hx : fault? x with
    | some e => rfl
    | none => exact ih (f s x)

theorem collectFrom_eq_mapM (f : Nat → Except ε α) (start count : Nat) :
    collectFrom f start count = (List.range' start count).mapM f := by
  induction count generalizing start with
  | zero => rfl
  | succ count ih =>
    rw [List.range'_succ, List.mapM_cons, ← ih]
    rfl

theorem findSome?_flatMap (p : β → Option ε) (f : α → List β) (xs : List α) :
    (xs.flatMap f).findSome? p = xs.findSome? fun x => (f x).findSome? p := by
  induction xs with
  | nil => rfl
  | cons x xs ih =>
    rw [List.flatMap_cons, List.findSome?_append, ih, List.findSome?_cons]
    cases (f x).findSome? p <;> rfl

end Faults

/-! ### What is asked for -/

/-- The shards that are asked for of an index: for each routing value that of each partition
offset, and without routing values all shards of the table. -/
def ShardTable.asked (table : ShardTable) (index : Index) : Option (Std.TreeSet String) → List UInt32
  | some values => values.toList.flatMap fun value =>
      (List.range index.partitionSize.toNat).map fun offset =>
        index.shardOf value (UInt32.ofNat offset)
  | none => table.copies.keys

/-- A shard of a table, without copies if the table does not have it. -/
def ShardTable.group (table : ShardTable) (name : String) (shard : UInt32) : ShardGroup :=
  ⟨name, shard, table.copies[shard]?.getD []⟩

/-- A shard that the table does not have is a fault. -/
def ShardTable.missing? (table : ShardTable) (name : String) (shard : UInt32) :
    Option PlanningError :=
  if shard ∈ table.copies then none else some (.shardNotFound name shard)

namespace Cluster

variable (cluster : Cluster) (values : RoutingValues)

/-- The shards that are asked for of the index of a name. -/
def asked (name : String) : List UInt32 :=
  match cluster.tables[name]?, cluster.indices[name]? with
  | some table, some index => table.asked index values[name]?
  | _, _ => []

/-- What is wrong with the index of a name: it is not there, or a shard that is asked for is not, of
which the first counts. -/
def fault? (name : String) : Option PlanningError :=
  match cluster.tables[name]?, cluster.indices[name]? with
  | some table, some index => (table.asked index values[name]?).findSome? (table.missing? name)
  | _, _ => some (.indexNotFound name)

/-- The targeted shards of some indices, each with the name of its index, in the order they are
asked for. -/
def targeted (indices : List String) : List (String × UInt32) :=
  indices.flatMap fun name => (cluster.asked values name).map (name, ·)

/-- The copies of a targeted shard. -/
def copiesOf (target : String × UInt32) : List ShardCopy :=
  (cluster.tables[target.1]?.bind (·.copies[target.2]?)).getD []

/-- A targeted shard with its copies. -/
def group (target : String × UInt32) : ShardGroup := ⟨target.1, target.2, cluster.copiesOf target⟩

end Cluster

namespace Routing

variable (cluster : Cluster) (values : RoutingValues)

theorem shardsOfValue_eq (name : String) (table : ShardTable) (index : Index) (value : String) :
    shardsOfValue name table index value =
      let shards := (List.range index.partitionSize.toNat).map fun offset =>
        index.shardOf value (UInt32.ofNat offset)
      orFault (shards.findSome? (table.missing? name)) (shards.map (table.group name)) := by
  have hsteps : shardsOfValue name table index value =
      collectFrom (fun offset =>
          orFault (table.missing? name (index.shardOf value (UInt32.ofNat offset)))
            (table.group name (index.shardOf value (UInt32.ofNat offset))))
        0 index.partitionSize.toNat := by
    unfold shardsOfValue
    refine congrArg (collectFrom · 0 _) (funext fun offset => ?_)
    simp only [ShardTable.group?, ShardTable.missing?, ShardTable.group,
      Std.TreeMap.mem_iff_isSome_getElem?]
    cases table.copies[index.shardOf value (UInt32.ofNat offset)]? <;> rfl
  rw [hsteps, collectFrom_eq_mapM, ← List.range_eq_range', mapM_orFault]
  simp only [List.findSome?_map, List.map_map]
  rfl

/-- All shards of a table are there. -/
theorem groups_eq (name : String) (table : ShardTable) :
    Except.ok (table.groups name) =
      orFault (table.copies.keys.findSome? (table.missing? name))
        (table.copies.keys.map (table.group name)) := by
  have hnone : table.copies.keys.findSome? (table.missing? name) = none := by
    rw [List.findSome?_eq_none_iff]
    intro shard hshard
    exact if_pos (Std.TreeMap.mem_keys.mp hshard)
  rw [hnone, ← Std.TreeMap.map_fst_toList_eq_keys, List.map_map]
  refine congrArg Except.ok (List.map_congr_left ?_)
  rintro ⟨shard, copies⟩ hentry
  have hcopies := Std.TreeMap.mem_toList_iff_getElem?_eq_some.mp hentry
  simp [ShardTable.group, hcopies]

theorem group_eq {cluster : Cluster} {name : String} {table : ShardTable}
    (htable : cluster.tables[name]? = some table) (shard : UInt32) :
    cluster.group (name, shard) = table.group name shard := by
  unfold Cluster.group Cluster.copiesOf
  rw [htable]
  rfl

theorem shardsOfIndex_eq (name : String) :
    shardsOfIndex cluster values name =
      orFault (cluster.fault? values name)
        ((cluster.asked values name).map fun shard => cluster.group (name, shard)) := by
  unfold shardsOfIndex Cluster.fault? Cluster.asked
  cases htable : cluster.tables[name]? with
  | none => rfl
  | some table =>
    simp only [group_eq htable]
    cases hindex : cluster.indices[name]? with
    | none => rfl
    | some index =>
      cases values[name]? with
      | none => exact groups_eq name table
      | some routing =>
        have hvalues := funext (shardsOfValue_eq name table index)
        simp only [hvalues, mapM_orFault, orFault_map, ShardTable.asked, findSome?_flatMap,
          List.map_flatMap]
        rfl

/-- **The targets are the targeted shards, each once**, unless an index has a fault; then the first
fault is the error. -/
theorem targets_eq (indices : List String) :
    targets cluster indices values =
      orFault (indices.findSome? (cluster.fault? values))
        (distinct ((cluster.targeted values indices).map cluster.group)) := by
  unfold targets
  rw [show shardsOfIndex cluster values = _ from funext (shardsOfIndex_eq cluster values),
    mapM_orFault, orFault_map, Cluster.targeted, List.map_flatMap]
  simp only [List.map_map]
  rfl

end Routing

end ShardedQuery
