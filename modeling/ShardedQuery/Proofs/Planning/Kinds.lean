import ShardedQuery.Proofs.Planning.Batches
import ShardedQuery.Proofs.Rows.Comparing

/-!
# Kinds of values

What an engine computes may be known to be of some kind only, such as values that can be compared.
Rows then hold no other values, however they are grouped, laid out and sent.

* `Scope.Holds V` — the columns, positions and aggregates of a place have values of a kind.
* `Engine.Yields V` — so do the constants, parameters, calls and aggregates of an engine.
* `Engine.value_of_yields` — **so does every symbol at such a place**.
* `Engine.rowHolds_of_step`, `Engine.rowHolds_of_emitted` — **rows keep to the kind of the
  records**.
* `Engine.comparable_of_yields` — **values that can be compared are enough to sort wherever a plan
  does**.
-/

namespace ShardedQuery

variable {V : Literal → Prop}

/-- The values that a place has are of a kind. -/
structure Scope.Holds (V : Literal → Prop) (x : Scope) : Prop where
  column : ∀ c, V (x.column c)
  position : ∀ i, V (x.position i)
  whole : ∀ f as, ∀ v ∈ x.whole f as, V v

theorem Record.scope_holds {r : Record} (hcolumn : ∀ c, V (r.column c))
    (hposition : ∀ i, V (r.position i)) : r.scope.Holds V :=
  ⟨hcolumn, hposition, fun _ _ _ h => (nomatch h)⟩

namespace Engine

/-- What an engine computes is of a kind, whatever from.  So are nulls and the numbers of records,
which plans come to without it. -/
structure Yields (E : Engine) (V : Literal → Prop) : Prop where
  null : V .null
  number : ∀ n, V (.int n)
  constant : ∀ v, V (E.constant v)
  parameter : ∀ i, V (E.parameter i)
  apply : ∀ f vs, V (E.apply f vs)
  finish : ∀ f s, V (E.finish f s)

/-- The engine that can count rows knows no float. -/
theorem counting_yields : counting.Yields Literal.FloatFree where
  null := trivial
  number _ := trivial
  constant v := by cases v <;> trivial
  parameter _ := trivial
  apply _ _ := trivial
  finish _ _ := trivial

variable {E : Engine}

/-- **A symbol has a value of the kind** that the place and the engine keep to. -/
theorem value_of_yields (hE : E.Yields V) {x : Scope} (hx : x.Holds V) (s : Symbol) :
    V (E.value x s) := by
  cases s with
  | literal v => exact hE.constant v
  | reference c => exact hx.column c
  | call f args =>
    rw [value_call]
    cases hwhole : x.whole f args with
    | none => exact hE.apply f _
    | some v => exact hx.whole f args v hwhole
  | input i => exact hx.position i
  | parameter i => exact hE.parameter i

theorem values_of_yields (hE : E.Yields V) {x : Scope} (hx : x.Holds V) (ss : List Symbol) :
    ∀ v ∈ E.values x ss, V v := by
  intro v hv
  rw [values_eq] at hv
  obtain ⟨s, -, rfl⟩ := List.mem_map.mp hv
  exact value_of_yields hE hx s

/-- Places can be sorted by values that can be compared. -/
theorem preorderOn_of_yields (hV : Literal.Orders V) (hE : E.Yields V) (o : SortSpec Symbol)
    {xs : List Scope} (hxs : ∀ x ∈ xs, x.Holds V) : PreorderOn (E.le o) xs := by
  have hrows := hV.compareBy o.onValues.keys o.onValues.reverse o.onValues.nullsFirst
  exact preorderOn_of_transCmp hrows
    (fun x => ⟨E.values x.1 o.keys, values_of_yields hE (hxs x.1 x.2) o.keys⟩) fun _ _ => rfl

/-! ### Rows between two steps -/

/-- The values in the columns of a row are of a kind. -/
def RowHolds (V : Literal → Prop) (row : E.Tuple) : Prop := ∀ c ∈ row, V c.literal

theorem inRow_holds (hnull : V .null) {row : E.Tuple} (hrow : RowHolds V row) :
    (E.inRow row).Holds V := by
  refine ⟨fun _ => hnull, fun i => ?_, fun _ _ _ h => (nomatch h)⟩
  show V ((row[i]?).elim .null Cell.literal)
  cases hi : row[i]? with
  | none => exact hnull
  | some c => exact hrow c (List.mem_of_getElem? hi)

theorem rowHolds_tuple (hE : E.Yields V) {x : Scope} (hx : x.Holds V) (outputs : List Symbol) :
    RowHolds V (E.tuple outputs x) := by
  intro c hc
  obtain ⟨v, hv, rfl⟩ := List.mem_map.mp hc
  exact values_of_yields hE hx outputs v hv

theorem rowHolds_project (hE : E.Yields V) {row : E.Tuple} (hrow : RowHolds V row)
    (outputs : List Symbol) : RowHolds V (E.project outputs row) := by
  intro c hc
  obtain ⟨s, -, rfl⟩ := List.mem_map.mp hc
  cases s with
  | input i =>
    show V ((row[i]?).getD (.value .null)).literal
    cases hi : row[i]? with
    | none => exact hE.null
    | some c => exact hrow c (List.mem_of_getElem? hi)
  | _ => exact value_of_yields hE (inRow_holds hE.null hrow) _

theorem literal_aggregate (hE : E.Yields V) (mode : AggregateMode) (rows : List E.Tuple)
    (a : Aggregation) : V (E.aggregate mode rows a).literal := by
  cases mode with
  | rowsToPartial => exact hE.null
  | rowsToFinal | partialToFinal => exact hE.finish _ _

/-- **One projection keeps to the kind.** -/
theorem rowHolds_of_step (hE : E.Yields V) {p : Projection} {xs ys : List E.Tuple}
    (h : E.Step p xs ys) (hxs : ∀ row ∈ xs, RowHolds V row) : ∀ row ∈ ys, RowHolds V row := by
  have hproject : ∀ (outs : List Symbol) (rows : List E.Tuple), (∀ row ∈ rows, RowHolds V row) →
      ∀ row ∈ rows.map (E.project outs), RowHolds V row := by
    intro outs rows hrows row hrow
    obtain ⟨x, hx, rfl⟩ := List.mem_map.mp hrow
    exact rowHolds_project hE (hrows x hx) outs
  cases p with
  | aggregation ags mode g =>
    intro row hrow c hc
    rw [show ys = _ from h, List.mem_singleton] at hrow
    rw [hrow] at hc
    obtain ⟨a, -, rfl⟩ := List.mem_map.mp hc
    exact literal_aggregate hE mode xs a
  | group keys values mode g =>
    intro row hrow c hc
    obtain ⟨k, hk, rfl⟩ := List.mem_map.mp ((show ys.Perm _ from h).mem_iff.mp hrow)
    obtain ⟨x, hx, rfl⟩ := List.mem_map.mp (List.mem_dedup.mp hk)
    rcases List.mem_append.mp hc with hc | hc
    · obtain ⟨v, hv, rfl⟩ := List.mem_map.mp hc
      exact values_of_yields hE (inRow_holds hE.null (hxs x hx)) keys v hv
    · obtain ⟨a, -, rfl⟩ := List.mem_map.mp hc
      exact literal_aggregate hE mode _ a
  | filter query g =>
    intro row hrow
    rw [show ys = _ from h] at hrow
    exact hxs row (List.mem_filter.mp hrow).1
  | topN w outs =>
    rw [show ys = _ from h]
    exact hproject outs _ fun row hrow => hxs row ((w.cut_sublist xs).subset hrow)
  | orderedTopN w outs o =>
    obtain ⟨zs, hsorts, rfl⟩ := h
    exact hproject outs _ fun row hrow =>
      hxs row (hsorts.1.mem_iff.mp ((w.cut_sublist zs).subset hrow))
  | eval outs =>
    rw [show ys = _ from h]
    exact hproject outs xs hxs

/-! ### Plans -/

section Plans

variable {placement : Placement}
  (hplacement : ∀ node, ∀ r ∈ (placement node).flatten, r.scope.Holds V)

include hplacement

/-- The records that a node reads are among those that are placed. -/
theorem scope_holds_of_inputs {nodes : List String} {shards : List (List Record)}
    (hshards : shards ∈ placement.inputs nodes) : ∀ r ∈ shards.flatten, r.scope.Holds V := by
  unfold Placement.inputs at hshards
  split at hshards
  · rw [List.mem_singleton.mp hshards]
    intro r hr
    cases hr
  · obtain ⟨node, -, rfl⟩ := List.mem_map.mp hshards
    exact hplacement node

/-- **The rows that a plan emits keep to the kind of the records.** -/
theorem rowHolds_of_emitted (hE : E.Yields V) {plan : Plan} {b : List E.Tuple}
    (hb : E.Emitted placement plan b) : ∀ row ∈ b, RowHolds V row := by
  have hstep : ∀ (_ : Unit) p (xs ys : List E.Tuple), E.Step p xs ys →
      (∀ row ∈ xs, RowHolds V row) → ∀ row ∈ ys, RowHolds V row :=
    fun _ _ _ _ hstep hxs => rowHolds_of_step hE hstep hxs
  induction plan generalizing b with
  | collect phase d =>
    obtain ⟨bs, hbs, hb⟩ := hb
    obtain ⟨shards, hshards, hreads⟩ :=
      exists_of_mem_right (show List.Forall₂ (E.Reads phase) _ bs from hbs) hb
    exact forall_of_reads (f := fun _ _ => ()) (I := fun _ row => RowHolds V row) (s := ()) hstep
      hreads fun r hr => rowHolds_tuple hE (scope_holds_of_inputs hplacement hshards r hr) _
  | merge source phase d ih =>
    obtain ⟨bs, ⟨bs₀, arrived, ys, hbs₀, harrived, hruns, rfl⟩, hb⟩ := hb
    rw [List.mem_singleton.mp hb]
    refine forall_of_runs (f := fun _ _ => ()) (I := fun _ row => RowHolds V row) (s := ()) hstep
      hruns fun xs hxs row hrow => ?_
    rw [List.mem_singleton.mp hxs] at hrow
    obtain ⟨b₀, hb₀, hrow⟩ := List.mem_flatten.mp hrow
    exact ih ⟨bs₀, hbs₀, harrived.mem_iff.mp hb₀⟩ row hrow
  | count phase d =>
    obtain ⟨bs, hbs, hb⟩ := hb
    rw [show bs = _ from hbs] at hb
    obtain ⟨shards, -, rfl⟩ := List.mem_map.mp hb
    intro row hrow c hc
    rw [List.mem_singleton.mp hrow, List.mem_singleton] at hc
    rw [hc]
    exact hE.number _

/-- **Values that can be compared are enough to sort** wherever a plan does, be it records or
rows. -/
theorem comparable_of_yields (hV : Literal.Orders V) (hE : E.Yields V) (plan : Plan) :
    E.Comparable placement plan := by
  refine ⟨fun phase d _ shards hshards => ?_, fun part _ ps p o _ _ b hb => ?_⟩
  · have hscopes : ∀ x ∈ (E.keptShards phase.filter shards).flatten.map Record.scope,
        x.Holds V := by
      intro x hx
      obtain ⟨r, hr, rfl⟩ := List.mem_map.mp hx
      obtain ⟨rs, hrs, hr⟩ := List.mem_flatten.mp hr
      obtain ⟨shard, hshard, rfl⟩ := List.mem_map.mp hrs
      exact scope_holds_of_inputs hplacement hshards r
        (List.mem_flatten.mpr ⟨shard, hshard, (List.mem_filter.mp hr).1⟩)
    cases phase.orderBy with
    | none => exact ⟨fun _ _ _ _ => .inl rfl, fun _ _ _ _ _ _ _ _ => rfl⟩
    | some ob => exact preorderOn_of_yields hV hE ob.spec hscopes
  · have hrows := rowHolds_of_emitted hplacement hE hb
    have hplaces : ∀ x ∈ b.map E.inRow, x.Holds V := by
      intro x hx
      obtain ⟨row, hrow, rfl⟩ := List.mem_map.mp hx
      exact inRow_holds hE.null (hrows row hrow)
    have hle := preorderOn_of_yields hV hE o hplaces
    exact ⟨fun x hx y hy => hle.total _ (List.mem_map_of_mem hx) _ (List.mem_map_of_mem hy),
      fun x hx y hy z hz => hle.trans _ (List.mem_map_of_mem hx) _ (List.mem_map_of_mem hy) _
        (List.mem_map_of_mem hz)⟩

end Plans

end Engine

end ShardedQuery
