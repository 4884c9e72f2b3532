import ShardedQuery.Proofs.Planning.Collecting
import ShardedQuery.Proofs.Planning.Widths

/-!
# Batches

A plan emits a batch of rows for each of its nodes.  What holds of every batch is followed through
the projections of the plan one by one: how wide its rows are, how many there are, and by which of
their columns they are sorted.

* `Plan.sources` — the plans whose rows a plan merges.
* `Engine.Emitted` — a batch that a plan may emit.
* `Engine.Comparable` — wherever a plan sorts, the rows to sort can be compared.
* `Engine.SortedBy` — rows in an order by their columns.
* `Engine.forall_of_runs` — **an invariant of rows through the projections of a phase**.
* `Engine.length_of_step` — each of them makes rows of its own width.
* `Engine.sortedBy_project` — **rows that are laid out anew are sorted by their new columns**.
* `Engine.length_le_of_arrange`, `Engine.sortedBy_arrange` — so they are by the cheapest projection
  for an order and a window, and cut.
-/

namespace ShardedQuery

/-! ### Parts of a plan -/

/-- The order that a projection sorts by, if it sorts. -/
def Projection.order? : Projection → Option (SortSpec Symbol)
  | orderedTopN _ _ order => some order
  | aggregation .. | group .. | filter .. | topN .. | eval .. => none

namespace Plan

/-- The plans that a plan merges the rows of, directly or not. -/
def sources : Plan → List Plan
  | collect .. | count .. => []
  | merge source _ _ => source :: source.sources

/-- The plan with other projections in its last phase. -/
def withProjections (ps : List Projection) : Plan → Plan
  | collect phase d => collect { phase with projections := ps } d
  | merge source phase d => merge source { phase with projections := ps } d
  | count phase d => count phase d

variable {plan plan' : Plan} {p : Projection} {window : Option Window} {order : Option ColumnOrder}

theorem sources_addProjection (h : plan.addProjection p window order = .ok plan') :
    plan'.sources = plan.sources := by
  cases plan <;> cases h <;> rfl

theorem projections_addProjection (h : plan.addProjection p window order = .ok plan') :
    plan'.projections = plan.projections ++ [p] := by
  cases plan <;> cases h <;> rfl

@[simp] theorem sources_withDelivery (plan : Plan) (d : Delivery) :
    (plan.withDelivery d).sources = plan.sources := by
  cases plan <;> rfl

@[simp] theorem projections_withDelivery (plan : Plan) (d : Delivery) :
    (plan.withDelivery d).projections = plan.projections := by
  cases plan <;> rfl

end Plan

namespace Engine

variable (E : Engine)

/-- A batch that a plan may emit. -/
def Emitted (placement : Placement) (plan : Plan) (b : List E.Tuple) : Prop :=
  ∃ bs, E.Emits placement plan bs ∧ b ∈ bs

/-- Wherever a plan sorts, be it records or rows, and be it in the phase of a source, the comparison
is a total preorder on what it sorts. -/
structure Comparable (placement : Placement) (plan : Plan) : Prop where
  records : ∀ phase d, .collect phase d ∈ plan :: plan.sources →
    ∀ shards ∈ placement.inputs phase.nodes,
      PreorderOn (E.leOf phase.orderBy)
        ((E.keptShards phase.filter shards).flatten.map Record.scope)
  rows : ∀ part ∈ plan :: plan.sources, ∀ ps p o, p.order? = some o →
    ps ++ [p] <+: part.projections → ∀ b, E.Emitted placement (part.withProjections ps) b →
      PreorderOn (fun x y => E.le o (E.inRow x) (E.inRow y)) b

variable {E} {placement : Placement} {plan plan' : Plan} {p : Projection} {b b' : List E.Tuple}
  {window : Option Window} {order : Option ColumnOrder}

/-! ### Batches of a plan that grows -/

theorem emitted_withDelivery {d : Delivery} :
    E.Emitted placement (plan.withDelivery d) b ↔ E.Emitted placement plan b := by
  cases plan <;> exact Iff.rfl

/-- **One more projection works on every batch.** -/
theorem emitted_addProjection (h : plan.addProjection p window order = .ok plan')
    (hp : p.IsJoinable) (hb : E.Emitted placement plan' b') :
    ∃ b, E.Emitted placement plan b ∧ E.Step p b b' := by
  obtain ⟨bs', hbs', hb'⟩ := hb
  obtain ⟨bs, hbs, hsteps⟩ := E.emits_addProjection h hp hbs'
  obtain ⟨b, hb, hstep⟩ := exists_of_mem_right hsteps hb'
  exact ⟨b, ⟨bs, hbs, hb⟩, hstep⟩

/-- The single batch of a merge comes from rows of its source. -/
theorem emitted_merge {phase : MergePhase} {d : Delivery} {toFinal : Projection}
    (hphase : phase.projections = [toFinal]) (hb : E.Emitted placement (.merge plan phase d) b') :
    ∃ b, E.Step toFinal b b' := by
  obtain ⟨bs', hbs', hb'⟩ := hb
  obtain ⟨_, arrived, ys, -, -, hstep, rfl⟩ := E.emits_merge hphase hbs'
  rw [List.mem_singleton.mp hb']
  exact ⟨_, hstep⟩

namespace Comparable

theorem of_addProjection (h : E.Comparable placement plan')
    (hadd : plan.addProjection p window order = .ok plan') : E.Comparable placement plan := by
  have hsources := Plan.sources_addProjection hadd
  refine ⟨fun phase d hmem => ?_, fun part hmem ps q o hq hprefix => ?_⟩
  · rcases List.mem_cons.mp hmem with rfl | hmem
    · cases hadd
      exact h.records { phase with projections := phase.projections ++ [p] } _ List.mem_cons_self
    · exact h.records phase d (List.mem_cons_of_mem _ (by rwa [hsources]))
  · rcases List.mem_cons.mp hmem with rfl | hmem
    · have hprefix : ps ++ [q] <+: plan'.projections := by
        rw [Plan.projections_addProjection hadd]
        exact hprefix.trans (List.prefix_append _ _)
      intro b hb
      refine h.rows plan' List.mem_cons_self ps q o hq hprefix b ?_
      cases part <;> cases hadd <;> exact hb
    · exact h.rows part (List.mem_cons_of_mem _ (by rwa [hsources])) ps q o hq hprefix

theorem of_withDelivery {d : Delivery} (h : E.Comparable placement (plan.withDelivery d)) :
    E.Comparable placement plan := by
  refine ⟨fun phase d' hmem => ?_, fun part hmem ps q o hq hprefix => ?_⟩
  · rcases List.mem_cons.mp hmem with rfl | hmem
    · exact h.records phase d List.mem_cons_self
    · exact h.records phase d' (List.mem_cons_of_mem _ (by rwa [Plan.sources_withDelivery]))
  · rcases List.mem_cons.mp hmem with rfl | hmem
    · intro b hb
      refine h.rows (part.withDelivery d) List.mem_cons_self ps q o hq
        (by rwa [Plan.projections_withDelivery]) b ?_
      cases part <;> exact hb
    · exact h.rows part (List.mem_cons_of_mem _ (by rwa [Plan.sources_withDelivery])) ps q o hq
        hprefix

theorem of_merge {phase : MergePhase} {d : Delivery}
    (h : E.Comparable placement (.merge plan phase d)) : E.Comparable placement plan :=
  ⟨fun phase d hmem => h.records phase d (List.mem_cons_of_mem _ hmem),
    fun part hmem => h.rows part (List.mem_cons_of_mem _ hmem)⟩

/-- The rows that reach the last projection can be compared if it sorts. -/
theorem last (h : E.Comparable placement plan')
    (hadd : plan.addProjection p window order = .ok plan') {o : SortSpec Symbol}
    (ho : p.order? = some o) (hb : E.Emitted placement plan b) :
    PreorderOn (fun x y => E.le o (E.inRow x) (E.inRow y)) b := by
  refine h.rows plan' List.mem_cons_self plan.projections p o ho ?_ b ?_
  · exact (Plan.projections_addProjection hadd).symm ▸ List.prefix_refl _
  · cases plan <;> cases hadd <;> exact hb

end Comparable

/-! ### What holds of every row -/

section Invariant

variable {σ : Type} {f : σ → Projection → σ} {I : σ → E.Tuple → Prop} {s : σ}
  (hstep : ∀ s p (xs ys : List E.Tuple), E.Step p xs ys → (∀ row ∈ xs, I s row) →
    ∀ row ∈ ys, I (f s p) row)

include hstep

/-- **What each projection makes of an invariant of rows, all of them do one after the other.** -/
theorem forall_of_runs {ps : List Projection} {streams : List (List E.Tuple)} {ys : List E.Tuple}
    (h : E.Runs ps streams ys) (hstreams : ∀ xs ∈ streams, ∀ row ∈ xs, I s row) :
    ∀ row ∈ ys, I (ps.foldl f s) row := by
  induction ps generalizing streams s with
  | nil =>
    intro row hrow
    rw [show ys = _ from h] at hrow
    obtain ⟨xs, hxs, hrow⟩ := List.mem_flatten.mp hrow
    exact hstreams xs hxs row hrow
  | cons p ps ih =>
    rw [Runs] at h
    split at h
    · obtain ⟨streams', hsteps, h⟩ := h
      refine ih h fun ys hys => ?_
      obtain ⟨xs, hxs, hxy⟩ := exists_of_mem_right hsteps hys
      exact hstep s p xs ys hxy (hstreams xs hxs)
    · obtain ⟨zs, hzs, h⟩ := h
      refine ih h fun ys hys => ?_
      rw [List.mem_singleton.mp hys]
      refine hstep s p _ zs hzs fun row hrow => ?_
      obtain ⟨xs, hxs, hrow⟩ := List.mem_flatten.mp hrow
      exact hstreams xs hxs row hrow

/-- So do those of a collect phase, from the records on. -/
theorem forall_of_reads {phase : CollectPhase} {shards : List (List Record)} {ys : List E.Tuple}
    (h : E.Reads phase shards ys)
    (hrecords : ∀ r ∈ shards.flatten, I s (E.tuple phase.toCollect r.scope)) :
    ∀ row ∈ ys, I (phase.projections.foldl f s) row := by
  have hkept : ∀ rs ∈ E.keptShards phase.filter shards, ∀ r ∈ rs, r ∈ shards.flatten := by
    intro rs hrs r hr
    obtain ⟨shard, hshard, rfl⟩ := List.mem_map.mp hrs
    exact List.mem_flatten.mpr ⟨shard, hshard, (List.mem_filter.mp hr).1⟩
  unfold Reads at h
  cases ho : phase.orderBy with
  | none =>
    simp only [ho] at h
    refine forall_of_runs hstep h fun xs hxs row hrow => ?_
    obtain ⟨rs, hrs, rfl⟩ := List.mem_map.mp hxs
    obtain ⟨r, hr, rfl⟩ := List.mem_map.mp hrow
    exact hrecords r (hkept rs hrs r hr)
  | some o =>
    simp only [ho] at h
    obtain ⟨sorted, hsorts, h⟩ := h
    refine forall_of_runs hstep h fun xs hxs row hrow => ?_
    rw [List.mem_singleton.mp hxs] at hrow
    obtain ⟨r, hr, rfl⟩ := List.mem_map.mp hrow
    obtain ⟨rs, hrs, hr⟩ := List.mem_flatten.mp (hsorts.1.mem_iff.mp hr)
    exact hrecords r (hkept rs hrs r hr)

end Invariant

/-! ### The width of rows -/

theorem length_of_step {m : Nat} {xs ys : List E.Tuple} (h : E.Step p xs ys)
    (hxs : ∀ row ∈ xs, row.length = m) : ∀ row ∈ ys, row.length = p.width?.getD m := by
  have hproject : ∀ (outs : List Symbol) (rows : List E.Tuple),
      ∀ row ∈ rows.map (E.project outs), row.length = outs.length := by
    intro outs rows row hrow
    obtain ⟨x, -, rfl⟩ := List.mem_map.mp hrow
    exact List.length_map _
  cases p with
  | aggregation ags mode g =>
    intro row hrow
    rw [show ys = _ from h, List.mem_singleton] at hrow
    rw [hrow]
    exact List.length_map _
  | group keys values mode g =>
    intro row hrow
    obtain ⟨k, hk, rfl⟩ := List.mem_map.mp ((show ys.Perm _ from h).mem_iff.mp hrow)
    obtain ⟨x, -, rfl⟩ := List.mem_map.mp (List.mem_dedup.mp hk)
    rw [groupRow, values_eq, List.length_append, List.length_map, List.length_map, List.length_map]
    rfl
  | filter query g =>
    intro row hrow
    rw [show ys = _ from h] at hrow
    exact hxs row (List.mem_filter.mp hrow).1
  | topN w outs =>
    rw [show ys = _ from h]
    exact hproject outs _
  | orderedTopN w outs o =>
    obtain ⟨zs, -, rfl⟩ := h
    exact hproject outs _
  | eval outs =>
    rw [show ys = _ from h]
    exact hproject outs _

theorem width_of_chain {m n : Nat} {ps : List Projection} (h : Projection.Chain m ps n) :
    ps.foldl (fun width p => p.width?.getD width) m = n := by
  induction h with
  | nil => rfl
  | snoc _ htakes ih => rw [List.foldl_append, ih, ← htakes.width]; rfl

theorem length_of_reads {phase : CollectPhase} {n : Nat} {shards : List (List Record)}
    {ys : List E.Tuple} (h : E.Reads phase shards ys)
    (hchain : Projection.Chain phase.toCollect.length phase.projections n) :
    ∀ row ∈ ys, row.length = n := by
  rw [← width_of_chain hchain]
  refine forall_of_reads (I := fun width row => row.length = width)
    (fun _ _ _ _ hstep hxs => length_of_step hstep hxs) h fun r _ => ?_
  rw [tuple_eq_map, List.length_map]

/-! ### The number of rows -/

/-- A projection that is neither an aggregation nor a grouping never adds rows. -/
theorem length_le_of_step {xs ys : List E.Tuple} (h : E.Step p xs ys) (hp : p.mode? = none) :
    ys.length ≤ xs.length := by
  cases p with
  | aggregation | group => cases hp
  | filter query g =>
    rw [show ys = _ from h]
    exact List.length_filter_le _ _
  | topN w outs =>
    rw [show ys = _ from h, List.length_map]
    exact (w.cut_sublist xs).length_le
  | orderedTopN w outs o =>
    obtain ⟨zs, hsorts, rfl⟩ := h
    rw [List.length_map, ← hsorts.1.length_eq]
    exact (w.cut_sublist zs).length_le
  | eval outs =>
    exact Nat.le_of_eq (by rw [show ys = _ from h, List.length_map])

/-- A projection that cuts leaves no more rows than the limit of its window. -/
theorem length_le_of_cut {xs ys : List E.Tuple} {w : Window} {n : Nat} (h : E.Step p xs ys)
    (hp : p.window? = some w) (hn : w.limit = some n) : ys.length ≤ n := by
  cases p with
  | aggregation | group | filter | eval => cases hp
  | topN w outs =>
    cases hp
    rw [show ys = _ from h, List.length_map]
    exact Window.length_cut_le hn xs
  | orderedTopN w outs o =>
    cases hp
    obtain ⟨zs, -, rfl⟩ := h
    rw [List.length_map]
    exact Window.length_cut_le hn zs

/-! ### The order of rows -/

/-- Rows in an order by their columns. -/
def SortedBy (c : ColumnOrder) (rows : List E.Tuple) : Prop :=
  rows.Pairwise fun x y => (c.compareRows (x.map Cell.literal) (y.map Cell.literal)).isLE = true

/-- A column of a row that is laid out anew has the value of its symbol. -/
theorem value_project {outs : List Symbol} {j : Nat} {t : Symbol} (h : outs[j]? = some t)
    (row : E.Tuple) :
    E.value (E.inRow (E.project outs row)) (.input j) = E.value (E.inRow row) t := by
  show ((E.project outs row)[j]?).elim .null Cell.literal = _
  rw [project, List.getElem?_map, h]
  show (E.cellOf row t).literal = _
  cases t with
  | input i =>
    show ((row[i]?).getD (.value .null)).literal = (row[i]?).elim .null Cell.literal
    cases row[i]? <;> rfl
  | literal | reference | call | parameter => rfl

/-- **Rows that are laid out anew are sorted by their new columns**, if these have the values that
the rows were sorted by. -/
theorem sortedBy_project {outs keys : List Symbol} {js : List Nat} {reverse nullsFirst : List Bool}
    {rows : List E.Tuple}
    (hcolumns : List.Forall₂ (fun j k => ∃ t, outs[j]? = some t ∧
      ∀ row, E.value (E.inRow row) t = E.value (E.inRow row) k) js keys)
    (hrows : rows.Pairwise fun x y =>
      E.le ⟨keys, reverse, nullsFirst⟩ (E.inRow x) (E.inRow y) = true) :
    SortedBy ⟨js, reverse, nullsFirst⟩ (rows.map (E.project outs)) := by
  have hvalues : ∀ row : E.Tuple, E.values (E.inRow (E.project outs row)) (js.map Symbol.input) =
      E.values (E.inRow row) keys := by
    intro row
    rw [values_eq, values_eq, List.map_map]
    clear hrows
    induction hcolumns with
    | nil => rfl
    | cons hjk _ ih =>
      obtain ⟨t, ht, hvalue⟩ := hjk
      rw [List.map_cons, List.map_cons, ih, ← hvalue, ← value_project ht]
      rfl
  refine List.pairwise_map.mpr (hrows.imp fun {x y} hxy => ?_)
  rw [E.compareRows_inRow]
  unfold le SortSpec.onValues at hxy ⊢
  simp only [ColumnOrder.inputColumns, hvalues, List.length_map, hcolumns.length_eq]
  exact hxy

/-- The columns that an order is found in have the values of the symbols that are read for it. -/
theorem columns_of_ofOrderBy? {o : OrderBy} {inputs outputs outs keys : List Symbol}
    {c : ColumnOrder} (hc : ColumnOrder.ofOrderBy? o outputs = some c)
    (houts : Symbol.readAllFrom inputs outputs = .ok outs)
    (hkeys : Symbol.readAllFrom inputs o.symbols = .ok keys) :
    List.Forall₂ (fun j k => ∃ t, outs[j]? = some t ∧
      ∀ row : E.Tuple, E.value (E.inRow row) t = E.value (E.inRow row) k) c.keys keys := by
  obtain ⟨js, hjs, rfl⟩ := Option.map_eq_some_iff.mp hc
  show List.Forall₂ _ js keys
  rw [Symbol.readAllFrom_eq] at houts hkeys
  have houts := forall₂_of_except_mapM houts
  replace hkeys := forall₂_of_except_mapM hkeys
  replace hjs := forall₂_of_option_mapM hjs
  clear hc
  generalize o.symbols = ss at hjs hkeys
  induction hjs generalizing keys with
  | nil =>
    cases hkeys
    exact .nil
  | cons hsj _ ih =>
    cases hkeys with
    | cons hk hkeys =>
      obtain ⟨y, hy, hys⟩ := position?_eq_some hsj
      obtain ⟨t, ht, hread⟩ := exists_getElem?_of_forall₂ houts hy
      have hvalue := Symbol.readFrom_congr hys hread hk
      exact .cons ⟨t, ht, fun row => E.value_congr _ hvalue⟩ (ih hkeys)

/-! ### The cheapest projection for an order and a window -/

variable {inputs outputs : List Symbol} {o : Option OrderBy} {keep : Option Nat}

theorem isJoinable_arrange {w : Window} (h : Projection.arrange inputs o w outputs = .ok p) :
    p.IsJoinable ∧ p.mode? = none := by
  obtain ⟨outs, -, h⟩ := except_bind_eq_ok.mp h
  cases o with
  | none =>
    cases h
    split <;> exact ⟨rfl, rfl⟩
  | some ob =>
    obtain ⟨keys, -, h⟩ := except_bind_eq_ok.mp h
    cases h
    exact ⟨rfl, rfl⟩

/-- It leaves no more rows than the window allows. -/
theorem length_le_of_arrange (h : Projection.arrange inputs o ⟨keep, 0⟩ outputs = .ok p)
    (hstep : E.Step p b b') {n : Nat} (hn : keep = some n) : b'.length ≤ n := by
  subst hn
  cases o with
  | none =>
    obtain ⟨outs, -, h⟩ := except_bind_eq_ok.mp h
    cases h
    exact length_le_of_cut hstep rfl rfl
  | some ob =>
    obtain ⟨outs, keys, -, -, rfl⟩ := arrange_orderedTopN h
    exact length_le_of_cut hstep rfl rfl

/-- **It leaves the rows in the order**, if that is one of their columns. -/
theorem sortedBy_arrange {ob : OrderBy} {w : Window} {c : ColumnOrder}
    (h : Projection.arrange inputs (some ob) w outputs = .ok p)
    (hc : ColumnOrder.ofOrderBy? ob outputs = some c)
    (hle : ∀ σ, p.order? = some σ → PreorderOn (fun x y => E.le σ (E.inRow x) (E.inRow y)) b)
    (hstep : E.Step p b b') : SortedBy c b' := by
  obtain ⟨outs, keys, houts, hkeys, rfl⟩ := arrange_orderedTopN h
  obtain ⟨zs, hsorts, rfl⟩ := hstep
  have hcolumns := columns_of_ofOrderBy? (E := E) hc houts hkeys
  obtain ⟨js, -, rfl⟩ := Option.map_eq_some_iff.mp hc
  exact sortedBy_project hcolumns ((hsorts.2 (hle _ rfl)).sublist (Window.cut_sublist _ zs))

end Engine

end ShardedQuery
