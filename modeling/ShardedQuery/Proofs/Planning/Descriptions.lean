import ShardedQuery.Proofs.Planning.Kinds
import ShardedQuery.Proofs.Planning.WellFormed

/-!
# What a delivery says of the rows

A delivery names the width of the rows, an order that the rows of each node are in, and a bound on
their number.  Its consumer relies on all three: the handler does not sort the rows of one node.

* `Delivery.Describes` — the rows of one node are as a delivery says.
* `Engine.IsDescribed` — so are the rows of each node of a plan, wherever the records are.
* `Engine.Kept` — **the invariant of a plan that grows**: its order is that of a query over its
  columns, and what its delivery says is true, but for a bound that a cut is still to make true.
* `Engine.BuildsKept` — the plans of a tree keep their word, but for the bound that is asked for.
* `Engine.kept_ofRelation`, `Engine.kept_groupOnCollectors` — every plan of a query keeps its word.
* `Planning.plan_isDescribed` — **the delivery of every plan tells the truth, and so do those of the
  plans that it merges**.
-/

namespace ShardedQuery

/-- The rows of one node are as a delivery says. -/
structure Delivery.Describes (d : Delivery) (rows : List Row) : Prop where
  width : ∀ row ∈ rows, row.length = d.width
  maxRows : ∀ n ∈ d.maxRowsPerNode, rows.length ≤ n
  order : ∀ c ∈ d.order, rows.Pairwise fun a b => (c.compareRows a b).isLE = true

namespace Engine

variable (E : Engine)

/-- Each node emits one batch of rows as the delivery of the plan says.  If there is no node, the
handler emits one. -/
def IsDescribed (placement : Placement) (plan : Plan) : Prop :=
  ∀ bs, E.Emits placement plan bs → bs.length = max 1 plan.delivery.nodes.length ∧
    ∀ b ∈ bs, plan.delivery.Describes (b.map (·.map Cell.literal))

/-- What the delivery of a plan says of order and number is true of every batch.  A bound of
`pending` rows may be wrong as long as a cut is still to come. -/
structure Keeps (placement : Placement) (plan : Plan) (pending : Option Nat) : Prop where
  order : ∀ c ∈ plan.delivery.order, ∀ b, E.Emitted placement plan b → SortedBy c b
  maxRows : ∀ n ∈ plan.delivery.maxRowsPerNode,
    pending = some n ∨ ∀ b, E.Emitted placement plan b → b.length ≤ n

/-- **The invariant of a plan that grows.**  The order that its delivery names is that of a query
over rows of some symbols; and what its delivery says is true, as it is of the plans that it
merges. -/
structure Kept (placement : Placement) (plan : Plan) (outputs : List Symbol)
    (pending : Option Nat) : Prop where
  found : ∀ c ∈ plan.delivery.order, ∃ o, ColumnOrder.ofOrderBy? o outputs = some c
  keeps : E.Comparable placement plan → E.Keeps placement plan pending
  sources : E.Comparable placement plan → ∀ source ∈ plan.sources, E.Keeps placement source none

variable {E} {env : Environment} {placement : Placement} {plan plan' : Plan} {p p' : Progress}
  {inputs outputs : List Symbol} {pending : Option Nat} {w : Window}

theorem sortedBy_iff {c : ColumnOrder} {rows : List E.Tuple} :
    SortedBy c rows ↔ rows.Pairwise fun x y =>
      E.le { c with keys := c.inputColumns } (E.inRow x) (E.inRow y) = true := by
  unfold SortedBy
  simp only [E.compareRows_inRow]

/-! ### Well-formed plans whose deliveries are true -/

theorem length_inputs (placement : Placement) (nodes : List String) :
    (placement.inputs nodes).length = max 1 nodes.length := by
  cases nodes with
  | nil => rfl
  | cons node nodes =>
    rw [Placement.inputs, if_neg (by simp), List.length_map]
    exact (Nat.max_eq_right (Nat.succ_pos _)).symm

/-- The rows of a well-formed plan are as wide as its delivery says. -/
theorem length_of_emitted (h : plan.WellFormed env) {b : List E.Tuple}
    (hb : E.Emitted placement plan b) : ∀ row ∈ b, row.length = plan.delivery.width := by
  induction h generalizing b with
  | collect nodes chain =>
    obtain ⟨bs, hbs, hb⟩ := hb
    obtain ⟨shards, -, hreads⟩ :=
      exists_of_mem_right (show List.Forall₂ (E.Reads _) _ bs from hbs) hb
    exact length_of_reads hreads chain
  | @merge source sourceDelivery phase d _ _ _ _ _ _ columns chain _ _ ih =>
    obtain ⟨bs, ⟨bs₀, arrived, ys, hbs₀, harrived, hruns, rfl⟩, hb⟩ := hb
    rw [List.mem_singleton.mp hb]
    rw [columns, Symbol.length_inputColumns] at chain
    show ∀ row ∈ ys, row.length = d.width
    rw [← width_of_chain chain]
    refine forall_of_runs (I := fun width row => row.length = width)
      (fun _ _ _ _ hstep hxs => length_of_step hstep hxs) hruns fun xs hxs row hrow => ?_
    rw [List.mem_singleton.mp hxs] at hrow
    obtain ⟨b₀, hb₀, hrow⟩ := List.mem_flatten.mp hrow
    exact ih ⟨bs₀, hbs₀, harrived.mem_iff.mp hb₀⟩ row hrow

/-- A well-formed plan emits one batch for each of its nodes. -/
theorem length_of_emits (h : plan.WellFormed env) {bs : List (List E.Tuple)}
    (hbs : E.Emits placement plan bs) : bs.length = max 1 plan.delivery.nodes.length := by
  cases h with
  | collect nodes _ =>
    rw [show (Plan.collect _ _).delivery.nodes = _ from nodes, ← length_inputs placement]
    exact (show List.Forall₂ (E.Reads _) _ bs from hbs).length_eq.symm
  | merge _ _ _ _ _ _ _ _ nodes _ =>
    obtain ⟨_, _, ys, -, -, -, rfl⟩ := hbs
    rw [show (Plan.merge _ _ _).delivery.nodes = _ from nodes]
    rfl

theorem isDescribed_of_keeps (h : plan.WellFormed env) (hkeeps : E.Keeps placement plan none) :
    E.IsDescribed placement plan := by
  refine fun bs hbs => ⟨length_of_emits h hbs, fun b hb => ⟨fun row hrow => ?_, fun n hn => ?_,
    fun c hc => List.pairwise_map.mpr (hkeeps.order c hc b ⟨bs, hbs, hb⟩)⟩⟩
  · obtain ⟨tuple, htuple, rfl⟩ := List.mem_map.mp hrow
    rw [List.length_map]
    exact length_of_emitted h ⟨bs, hbs, hb⟩ tuple htuple
  · rw [List.length_map]
    exact (hkeeps.maxRows n hn).resolve_left (fun hnone => nomatch hnone) b ⟨bs, hbs, hb⟩

/-- A count phase emits one number for each node. -/
theorem isDescribed_ofCount (phase : CountPhase) : E.IsDescribed placement (.ofCount phase) := by
  intro bs hbs
  rw [show bs = _ from hbs]
  refine ⟨by rw [List.length_map, length_inputs]; rfl, fun b hb => ?_⟩
  obtain ⟨shards, -, rfl⟩ := List.mem_map.mp hb
  refine ⟨fun row hrow => ?_, fun n hn => ?_, fun c hc => nomatch hc⟩
  · rw [List.mem_singleton.mp hrow]
    rfl
  · cases hn
    exact Nat.le_refl 1

/-! ### Plans that grow -/

namespace Kept

/-- A plan that names no order, and no bound but one that is still to be made true. -/
theorem of_silent (horder : plan.delivery.order = none)
    (hrows : ∀ n ∈ plan.delivery.maxRowsPerNode, pending = some n) (hsources : plan.sources = []) :
    E.Kept placement plan outputs pending := by
  refine ⟨fun c hc => ?_, fun _ => ⟨fun c hc => ?_, fun n hn => .inl (hrows n hn)⟩,
    fun _ source hsource => ?_⟩
  · rw [horder] at hc
    cases hc
  · rw [horder] at hc
    cases hc
  · rw [hsources] at hsource
    cases hsource

/-- **One more projection.**  It may make a bound true that has not been yet, and has to leave the
rows in the order that the delivery goes on to name. -/
theorem addProjection {q : Projection} {window : Option Window} {order : Option ColumnOrder}
    {pending' : Option Nat} (h : E.Kept placement plan inputs pending)
    (hadd : plan.addProjection q window order = .ok plan') (hq : q.IsJoinable)
    (hmode : q.mode? = none)
    (hpending : ∀ n, pending = some n →
      pending' = some n ∨ ∀ b b' : List E.Tuple, E.Step q b b' → b'.length ≤ n)
    (horder : ∀ c ∈ order.or plan.delivery.order,
      (∃ o, ColumnOrder.ofOrderBy? o outputs = some c) ∧ ∀ b b' : List E.Tuple,
        (∀ σ, q.order? = some σ → PreorderOn (fun x y => E.le σ (E.inRow x) (E.inRow y)) b) →
        (∀ c₀ ∈ plan.delivery.order, SortedBy c₀ b) → E.Step q b b' → SortedBy c b') :
    E.Kept placement plan' outputs pending' := by
  have hdelivery := Plan.delivery_addProjection hadd
  refine ⟨fun c hc => ?_, fun hcomparable => ⟨fun c hc b' hb' => ?_, fun n hn => ?_⟩,
    fun hcomparable => ?_⟩
  · rw [hdelivery] at hc
    exact (horder c hc).1
  · rw [hdelivery] at hc
    obtain ⟨b, hb, hstep⟩ := emitted_addProjection hadd hq hb'
    exact (horder c hc).2 b b' (fun σ hσ => hcomparable.last hadd hσ hb)
      (fun c₀ hc₀ => (h.keeps (hcomparable.of_addProjection hadd)).order c₀ hc₀ b hb) hstep
  · rw [hdelivery] at hn
    have hfewer : (∀ b, E.Emitted placement plan b → b.length ≤ n) →
        ∀ b', E.Emitted placement plan' b' → b'.length ≤ n := by
      intro hbound b' hb'
      obtain ⟨b, hb, hstep⟩ := emitted_addProjection hadd hq hb'
      exact Nat.le_trans (length_le_of_step hstep hmode) (hbound b hb)
    rcases (h.keeps (hcomparable.of_addProjection hadd)).maxRows n hn with hwaiting | hbound
    · rcases hpending n hwaiting with hwaiting | hcut
      · exact .inl hwaiting
      · refine .inr fun b' hb' => ?_
        obtain ⟨b, -, hstep⟩ := emitted_addProjection hadd hq hb'
        exact hcut b b' hstep
    · exact .inr (hfewer hbound)
  · rw [Plan.sources_addProjection hadd]
    exact h.sources (hcomparable.of_addProjection hadd)

/-- A merge of a plan whose delivery is true. -/
theorem merge {phase : MergePhase} {d : Delivery} {toFinal : Projection}
    (h : E.Kept placement plan inputs none) (hphase : phase.projections = [toFinal])
    (horder : d.order = none)
    (hrows : ∀ n ∈ d.maxRowsPerNode, ∀ b b' : List E.Tuple, E.Step toFinal b b' → b'.length ≤ n) :
    E.Kept placement (.merge plan phase d) outputs pending := by
  refine ⟨fun c hc => ?_, fun _ => ⟨fun c hc => ?_, fun n hn => .inr fun b' hb' => ?_⟩,
    fun hcomparable source hsource => ?_⟩
  · rw [show (Plan.merge _ _ d).delivery.order = _ from horder] at hc
    cases hc
  · rw [show (Plan.merge _ _ d).delivery.order = _ from horder] at hc
    cases hc
  · obtain ⟨b, hstep⟩ := emitted_merge hphase hb'
    exact hrows n hn b b' hstep
  · rcases List.mem_cons.mp hsource with rfl | hsource
    · exact h.keeps hcomparable.of_merge
    · exact h.sources hcomparable.of_merge source hsource

theorem clearOrder (h : E.Kept placement plan outputs pending) :
    E.Kept placement plan.clearOrder outputs pending := by
  unfold Plan.clearOrder
  refine ⟨fun c hc => ?_, fun hcomparable => ⟨fun c hc => ?_, fun n hn => ?_⟩,
    fun hcomparable => ?_⟩
  · rw [Plan.delivery_withDelivery] at hc
    cases hc
  · rw [Plan.delivery_withDelivery] at hc
    cases hc
  · rw [Plan.delivery_withDelivery] at hn
    exact ((h.keeps hcomparable.of_withDelivery).maxRows n hn).imp_right
      fun hbound b hb => hbound b (emitted_withDelivery.mp hb)
  · rw [Plan.sources_withDelivery]
    exact h.sources hcomparable.of_withDelivery

/-! ### The steps of a planner -/

theorem filterStep {having : Symbol} (h : E.Kept placement plan inputs pending)
    (hstep : Logical.filterStep inputs having plan = .ok plan') :
    E.Kept placement plan' inputs pending := by
  obtain ⟨q, hq, hadd⟩ := except_bind_eq_ok.mp hstep
  obtain ⟨query, -, hq⟩ := except_bind_eq_ok.mp hq
  cases hq
  refine h.addProjection hadd trivial rfl (fun n hn => .inl hn) fun c hc => ⟨h.found c hc, ?_⟩
  intro b b' _ hsorted hfilter
  rw [show b' = _ from hfilter]
  exact (hsorted c hc).filter _

theorem orderStep {o : OrderBy} (h : E.Kept placement plan inputs pending)
    (hstep : Logical.orderStep inputs o w plan = .ok plan') :
    E.Kept placement plan' inputs pending := by
  unfold Logical.orderStep at hstep
  split at hstep
  · cases hstep
    exact h
  · rename_i hnone
    obtain ⟨q, hq, hadd⟩ := except_bind_eq_ok.mp hstep
    obtain ⟨hjoinable, hmode⟩ := isJoinable_arrange hq
    refine h.addProjection hadd hjoinable hmode (fun n hn => .inl hn) fun c hc => ?_
    rw [hnone, Option.or_none] at hc
    exact ⟨⟨o, hc⟩, fun b b' hle _ hsort => sortedBy_arrange hq hc hle hsort⟩

/-- A cut makes the bound true that has been waiting for it, and keeps the order. -/
theorem limitStep (h : E.Kept placement plan inputs w.reach) (hw : w.IsSmall)
    (hstep : Logical.limitStep env inputs w plan = .ok plan') :
    E.Kept placement plan' inputs none := by
  have hcut : ∀ (v : Window) (window : Option Window),
      (∀ n, w.reach = some n → ∃ k ≤ n, v.limit = some k) →
      plan.addProjection (.topN v (Symbol.inputColumns inputs.length)) window none = .ok plan' →
        E.Kept placement plan' inputs none := by
    intro v window hlimit hadd
    refine h.addProjection hadd rfl rfl (fun n hn => .inr fun b b' hcut => ?_)
      fun c hc => ⟨h.found c hc, fun b b' _ hsorted hcut => ?_⟩
    · obtain ⟨k, hk, hv⟩ := hlimit n hn
      exact Nat.le_trans (length_le_of_cut hcut rfl hv) hk
    · obtain ⟨o, ho⟩ := h.found c hc
      rw [show b' = _ from hcut]
      refine sortedBy_project ?_ ((sortedBy_iff.mp (hsorted c hc)).sublist (v.cut_sublist b))
      refine List.forall₂_map_right_iff.mpr (List.forall₂_same.mpr fun j hj => ?_)
      have hlt := (ColumnOrder.fitsIn_ofOrderBy? ho).keys j hj
      refine ⟨.input j, ?_, fun _ => rfl⟩
      rw [Symbol.inputColumns, List.getElem?_map, List.getElem?_range hlt]
      rfl
  unfold Logical.limitStep at hstep
  split at hstep
  · refine hcut w _ (fun n hn => ?_) hstep
    cases hlimit : w.limit with
    | none =>
      rw [Window.reach_of_no_limit hlimit] at hn
      cases hn
    | some k =>
      rw [Window.reach_of_limit hw hlimit] at hn
      cases hn
      exact ⟨k, Nat.le_add_right _ _, rfl⟩
  · exact hcut _ _ (fun n hn => ⟨n, Nat.le_refl n, hn⟩) hstep

/-- Rows that are laid out anew keep an order that is one of their new columns. -/
theorem eval {outs : List Symbol} {order : Option ColumnOrder}
    (h : E.Kept placement plan inputs none)
    (houts : Symbol.readAllFrom inputs outputs = .ok outs)
    (horder : order.or plan.delivery.order =
      plan.delivery.order.bind fun c => c.remap? inputs outputs)
    (hadd : plan.addProjection (.eval outs) none order = .ok plan') :
    E.Kept placement plan' outputs none := by
  refine h.addProjection hadd rfl rfl (fun n hn => .inl hn) fun c hc => ?_
  rw [horder] at hc
  obtain ⟨c₀, hc₀, hremap⟩ := Option.bind_eq_some_iff.mp hc
  obtain ⟨o, ho⟩ := h.found c₀ hc₀
  rw [ColumnOrder.remap?_of_ofOrderBy? ho] at hremap
  refine ⟨⟨o, hremap⟩, fun b b' _ hsorted hout => ?_⟩
  have hcolumns := columns_of_ofOrderBy? (E := E) hremap houts
    (ColumnOrder.readAllFrom_of_ofOrderBy? ho)
  have hsorted := sortedBy_iff.mp (hsorted c₀ hc₀)
  obtain ⟨js, -, rfl⟩ := Option.map_eq_some_iff.mp hremap
  obtain ⟨ks, -, rfl⟩ := Option.map_eq_some_iff.mp ho
  rw [show b' = _ from hout]
  exact sortedBy_project hcolumns hsorted

theorem evalStep (h : E.Kept placement plan inputs none)
    (hstep : Logical.evalStep env inputs outputs plan p = .ok plan' p') :
    E.Kept placement plan' outputs none := by
  obtain ⟨eval, _, harrange, hstep⟩ := Planning.bind_eq_ok.mp hstep
  obtain ⟨outs, houts, rfl⟩ := arrange_eval (Planning.ofExcept_eq_ok.mp harrange).1
  cases horder : plan.delivery.order with
  | none =>
    simp only [horder] at hstep
    exact h.eval houts (by rw [horder]; rfl) (Planning.ofExcept_eq_ok.mp hstep).1
  | some c =>
    cases hremap : c.remap? inputs outputs with
    | some c' =>
      simp only [horder, hremap] at hstep
      exact h.eval houts (by rw [horder, Option.bind_some, hremap]; rfl)
        (Planning.ofExcept_eq_ok.mp hstep).1
    | none =>
      simp only [horder, hremap] at hstep
      split at hstep
      · obtain ⟨added, hadd, hclear⟩ := except_bind_eq_ok.mp (Planning.ofExcept_eq_ok.mp hstep).1
        cases hclear
        have hcleared : plan.clearOrder.addProjection (.eval outs) none none =
            .ok added.clearOrder := by
          cases plan <;> cases hadd <;> rfl
        refine h.clearOrder.eval houts ?_ hcleared
        rw [Plan.clearOrder, Plan.delivery_withDelivery]
        rfl
      · obtain ⟨merged, _, hmerge, hstep⟩ := Planning.bind_eq_ok.mp hstep
        obtain ⟨phase, hphase, rfl⟩ := mergeOnHandler_eq hmerge
        have hmerged : E.Kept placement (.merge plan phase
            ⟨[env.handler], none, .unbounded, plan.delivery.width, none⟩) inputs none := by
          refine h.merge hphase rfl fun n hn => ?_
          cases hn
        exact hmerged.eval houts rfl (Planning.ofExcept_eq_ok.mp hstep).1

end Kept

/-! ### The plans of a tree -/

/-- Every plan of the tree keeps its word, but for the bound that is asked for. -/
def BuildsKept (E : Engine) (env : Environment) (placement : Placement) (t : Logical) : Prop :=
  ∀ request p plan p', t.build env request p = .ok plan p' →
    E.Kept placement plan t.outputs request.window.limit

/-- A leaf reads the records of each node in the order that is asked for.  The bound that it names
is the one that is asked for, and nothing is cut yet. -/
theorem kept_collectStep {relation : Relation} {toCollect : List Symbol} {clause : WhereClause}
    {request : Request}
    (h : Logical.collectStep env relation toCollect clause request p = .ok plan p') :
    E.Kept placement plan toCollect request.window.limit := by
  cases relation with
  | derived name query => exact absurd h Planning.throw_ne_ok
  | table table query =>
    obtain ⟨phase, hbare, rfl, -, hasked, -, rfl⟩ := collectStep_eq_ok h
    refine ⟨fun c hc => ?_, fun hcomparable => ⟨fun c hc b hb => ?_, fun n hn => .inl hn⟩,
      fun _ source hsource => (nomatch hsource)⟩
    · obtain ⟨o, -, hc⟩ := Option.bind_eq_some_iff.mp hc
      exact ⟨o, hc⟩
    · obtain ⟨o, ho, hc⟩ := Option.bind_eq_some_iff.mp hc
      obtain ⟨bs, hbs, hb⟩ := hb
      obtain ⟨shards, hshards, hreads⟩ :=
        exists_of_mem_right (show List.Forall₂ (E.Reads phase) _ bs from hbs) hb
      obtain ⟨rs, hperm, hsorted, rfl⟩ := reads_bare hbare hreads
      have hrecords := hcomparable.records phase _ List.mem_cons_self shards hshards
      have hscopes := hsorted (hrecords.mono fun x hx => (hperm.map _).mem_iff.mp hx)
      rw [hasked, ho] at hscopes
      refine sortedBy_iff.mpr (List.pairwise_map.mpr (hscopes.imp fun {x y} hxy => ?_))
      rw [E.le_inputColumns (ColumnOrder.foundIn_of_ofOrderBy? hc)]
      exact hxy

/-- Aggregation over a leaf, in one tier or in two.  A bound is named for the second tier only,
which has to keep it. -/
theorem kept_inTiers {t : Logical} (ht : t.IsLeaf) (hplan : t.build env {} p = .ok plan p')
    {full toPartial toFinal : Except PlanningError Projection} {width : Nat} {maxRows : Option Nat}
    {q q' : Progress}
    (hfinal : ∀ f, toFinal = .ok f → ∀ n ∈ maxRows, ∀ b b' : List E.Tuple,
      E.Step f b b' → b'.length ≤ n)
    (h : Logical.inTiers env full toPartial toFinal width maxRows plan q = .ok plan' q') :
    E.Kept placement plan' outputs pending := by
  obtain ⟨phase, m, rfl⟩ := Logical.exists_of_isLeaf ht hplan
  have hadded : ∀ (f : Projection) added,
      (Plan.ofCollect phase {} m none none).addProjection f none none = .ok added →
      ∀ pending, E.Kept placement added outputs pending := by
    intro f added hadd pending
    cases hadd
    exact .of_silent rfl (fun n hn => (nomatch hn)) rfl
  rcases Logical.inTiers_eq_ok h with ⟨-, f, -, hadd⟩ | ⟨-, f, g, added, -, hg, hadd, hmerge⟩
  · exact hadded f plan' hadd pending
  · obtain ⟨merge, hphase, rfl⟩ := mergeOnHandler_eq hmerge
    exact (hadded f added hadd none).merge hphase rfl (hfinal g hg)

theorem buildsKept_base (relation : Relation) :
    BuildsKept E env placement (Logical.base relation) := by
  intro request p plan p' h
  cases hkeys : relation.query.groupBy with
  | some keys =>
    rw [Logical.base_of_groupBy hkeys] at h
    obtain ⟨source, q, hsource, hstep⟩ := Planning.bind_eq_ok.mp h
    rw [Logical.groupStep_eq] at hstep
    refine kept_inTiers (t := .collect relation _ _) trivial hsource (fun _ _ n hn => ?_) hstep
    cases hn
  | none =>
    by_cases haggregates : (Split.ofSelect relation.query).aggregates = []
    · rw [Logical.base_of_rows hkeys haggregates] at h ⊢
      exact kept_collectStep h
    · rw [Logical.base_of_aggregates hkeys haggregates] at h
      obtain ⟨source, q, hsource, hstep⟩ := Planning.bind_eq_ok.mp h
      rw [Logical.aggregateStep_eq] at hstep
      refine kept_inTiers (t := .collect relation _ _) trivial hsource
        (fun f hf n hn b b' hfinal => ?_) hstep
      obtain ⟨ags, -, rfl⟩ := aggregationOf_eq_ok hf
      cases hn
      rw [show b' = _ from hfinal]
      exact Nat.le_refl 1

section Tree

variable {q : Select} {t : Logical}

theorem BuildsKept.having (ht : BuildsKept E env placement t) :
    BuildsKept E env placement (Logical.having q t) := by
  intro request p plan p' h
  rw [Logical.outputs_having]
  rcases Logical.build_having_eq_ok h with ⟨-, h⟩ | ⟨having, source, -, hsource, hfilter⟩
  · exact ht request p plan p' h
  · exact (ht request p source p' hsource).filterStep hfilter

theorem BuildsKept.ordered (ht : BuildsKept E env placement t) :
    BuildsKept E env placement (Logical.ordered q t) := by
  intro request p plan p' h
  rw [Logical.outputs_ordered]
  rcases Logical.build_ordered_eq_ok h with ⟨-, h⟩ | ⟨o, source, -, hsource, horder⟩
  · exact ht request p plan p' h
  · exact (ht _ p source p' hsource).orderStep horder

/-- A limit asks its source for no more than it needs, and makes the bound true that comes of
that. -/
theorem BuildsKept.limited (ht : BuildsKept E env placement t)
    (h : (Logical.limited q t).build env {} p = .ok plan p') :
    E.Kept placement plan (Logical.limited q t).outputs none := by
  rw [Logical.outputs_limited]
  rcases Logical.build_limited_eq_ok h with ⟨-, -, h⟩ | ⟨w, source, hwindow, hsource, hlimit⟩
  · exact ht {} p plan p' h
  · exact (ht _ p source p' hsource).limitStep (Environment.window_isSmall hwindow) hlimit

end Tree

/-- **The plan of the tree of a query keeps its word.** -/
theorem kept_ofRelation {relation : Relation}
    (h : (Logical.ofRelation relation).build env {} p = .ok plan p') :
    ∃ outputs, E.Kept placement plan outputs none := by
  have hbase : BuildsKept E env placement (Logical.base relation) := buildsKept_base relation
  rw [Logical.ofRelation_eq] at h
  rcases Logical.build_laidOut_eq_ok h with ⟨-, h⟩ | ⟨source, p₁, hsource, heval⟩
  · exact ⟨_, hbase.having.ordered.limited h⟩
  · exact ⟨_, (hbase.having.ordered.limited hsource).evalStep heval⟩

/-- **So does the plan of a grouping where the rows are read.** -/
theorem kept_groupOnCollectors {table : Table} {query : Select}
    (h : Planning.groupOnCollectors env table query p = .ok plan p') :
    E.Kept placement plan query.outputs none := by
  obtain ⟨phase, p₁, keys', ags, filters, w, arranged, -, -, -, -, -, -, -, -, hplan⟩ :=
    Planning.groupOnCollectors_eq_ok h
  generalize Projection.group keys' ags .rowsToFinal .shard :: filters = ps at hplan
  generalize query.groupKeys ++ (Split.ofSelect query).aggregates = groups at hplan
  have hgrouped : E.Kept placement (.collect { phase with projections := ps }
      ⟨phase.nodes, none, w, groups.length, w.reach⟩) groups w.reach :=
    .of_silent rfl (fun n hn => hn) rfl
  -- the groups of each node, arranged as some outputs
  have hcollected : ∀ outputs, Projection.arrange groups query.orderBy ⟨w.reach, 0⟩ outputs =
      .ok arranged →
      E.Kept placement (.ofCollect { phase with projections := ps ++ [arranged] } w outputs.length
        w.reach (query.orderBy.bind fun o => ColumnOrder.ofOrderBy? o outputs)) outputs none := by
    intro outputs harranged
    generalize horder : (query.orderBy.bind fun o => ColumnOrder.ofOrderBy? o outputs) = order
    have hadd : (Plan.collect { phase with projections := ps }
        ⟨phase.nodes, none, w, groups.length, w.reach⟩).addProjection arranged none order =
          .ok (.ofCollect { phase with projections := ps ++ [arranged] } w outputs.length w.reach
            order) := by
      rw [← (Projection.takes_arrange harranged).width, ← Option.or_none (o := order)]
      cases order <;> rfl
    obtain ⟨hjoinable, hmode⟩ := isJoinable_arrange harranged
    refine hgrouped.addProjection hadd hjoinable hmode
      (fun n hn => .inr fun b b' hstep => length_le_of_arrange harranged hstep hn) fun c hc => ?_
    change c ∈ order.or none at hc
    rw [Option.or_none, ← horder] at hc
    obtain ⟨o, ho, hc⟩ := Option.bind_eq_some_iff.mp hc
    rw [ho] at harranged
    exact ⟨⟨o, hc⟩, fun b b' hle _ hstep => sortedBy_arrange harranged hc hle hstep⟩
  rcases hplan with ⟨-, harranged, rfl⟩ | ⟨o, toFinal, q₁, ho, -, harranged, -, hmerge⟩
  · exact hcollected query.outputs harranged
  · obtain ⟨merge, hphase, rfl⟩ := mergeOnHandler_eq hmerge
    have hsource := hcollected groups harranged
    rw [ho] at hsource
    exact hsource.merge hphase rfl fun n hn => (nomatch hn)

end Engine

/-! ### The plans of queries -/

/-- The plans that a well-formed plan merges are well formed. -/
theorem Plan.WellFormed.sources {env : Environment} {plan : Plan} (h : plan.WellFormed env) :
    ∀ source ∈ plan.sources, source.WellFormed env := by
  cases h with
  | collect nodes chain => exact fun source hsource => (nomatch hsource)
  | merge wellFormed =>
    intro source hsource
    rw [List.mem_singleton.mp hsource]
    exact wellFormed

namespace Planning

variable {env : Environment} {relation : Relation} {plan' : Plan} {p p' : Progress}

/-- A plan is a count, or all that its delivery says is true wherever its rows can be sorted. -/
theorem keeps_plan (E : Engine) (h : plan env relation p = .ok plan' p') (placement : Placement) :
    (∃ phase, plan' = .ofCount phase) ∨ ∃ outputs, E.Kept placement plan' outputs none := by
  rcases plan_eq_ok h with hcount | ⟨table, query, rfl, -, hgroups⟩ | hgeneral
  · exact .inl hcount
  · exact .inr ⟨query.outputs, Engine.kept_groupOnCollectors hgroups⟩
  · exact .inr (Engine.kept_ofRelation hgeneral)

/-- **The delivery of every plan tells the truth**, and so do those of the plans that it merges.
Wherever the records are, each node emits one batch; its rows are as wide as the delivery says, they
are no more than that, and they are in the order that it names.  All that this takes is that the
plan can compare what it sorts. -/
theorem plan_isDescribed (E : Engine) (h : plan env relation p = .ok plan' p')
    (placement : Placement) (hcomparable : E.Comparable placement plan') :
    ∀ part ∈ plan' :: plan'.sources,
      (∃ bs, E.Emits placement part bs) ∧ E.IsDescribed placement part := by
  refine fun part hpart => ⟨E.exists_emits placement part, ?_⟩
  rcases keeps_plan E h placement with ⟨phase, rfl⟩ | ⟨outputs, hkept⟩
  · rw [List.mem_singleton.mp hpart]
    exact Engine.isDescribed_ofCount phase
  · rcases isSound_plan h with ⟨phase, rfl⟩ | hsound
    · rw [List.mem_singleton.mp hpart]
      exact Engine.isDescribed_ofCount phase
    · rcases List.mem_cons.mp hpart with rfl | hsource
      · exact Engine.isDescribed_of_keeps hsound.wellFormed (hkept.keeps hcomparable)
      · exact Engine.isDescribed_of_keeps (hsound.wellFormed.sources part hsource)
          (hkept.sources hcomparable part hsource)

/-- A grouping over two nodes, where each node names an order and a bound for the merge. -/
theorem plan_isDescribed_topCity :
    let env := twoShards cityIndex
    let grouping : Relation := .table ((Table.ofDocuments "doc" "t").withClusteredBy "city") topCity
    let placement : Placement := fun node =>
      if node = "n1" then [[.ofInt 5, .ofInt 2, .ofInt 5]] else [[.ofInt 3]]
    ∃ plan' p', plan env grouping (.start 0) = .ok plan' p' ∧
      Engine.counting.Comparable placement plan' ∧
      (plan'.sources.map fun source => (source.delivery.nodes, source.delivery.maxRowsPerNode,
        source.delivery.order.isSome)) = [(["n1", "n2"], some 1, true)] ∧
      ∀ part ∈ plan' :: plan'.sources,
        (∃ bs, Engine.counting.Emits placement part bs) ∧
          Engine.counting.IsDescribed placement part := by
  intro env grouping placement
  obtain ⟨plan', p', hplan, hsources⟩ : ∃ plan' p', plan env grouping (.start 0) = .ok plan' p' ∧
      (plan'.sources.map fun source => (source.delivery.nodes, source.delivery.maxRowsPerNode,
        source.delivery.order.isSome)) = [(["n1", "n2"], some 1, true)] :=
    exists_of_succeedsWith (by decide +kernel)
  have hrecords : ∀ node, ∀ r ∈ (placement node).flatten, r.scope.Holds Literal.FloatFree := by
    intro node r hr
    obtain ⟨n, rfl⟩ : ∃ n, r = .ofInt n := by
      by_cases hnode : node = "n1"
      · rw [show placement node = _ from if_pos hnode] at hr
        rcases List.mem_cons.mp hr with rfl | hr
        · exact ⟨5, rfl⟩
        · rcases List.mem_cons.mp hr with rfl | hr
          · exact ⟨2, rfl⟩
          · exact ⟨5, List.mem_singleton.mp hr⟩
      · rw [show placement node = _ from if_neg hnode] at hr
        exact ⟨3, List.mem_singleton.mp hr⟩
    exact Record.scope_holds (fun _ => trivial) fun _ => trivial
  have hcomparable := Engine.comparable_of_yields hrecords Literal.orders_floatFree
    Engine.counting_yields plan'
  exact ⟨plan', p', hplan, hcomparable, hsources,
    plan_isDescribed Engine.counting hplan placement hcomparable⟩

end Planning

end ShardedQuery
