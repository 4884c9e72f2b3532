import ShardedQuery.Proofs.Planning.Collecting
import ShardedQuery.Proofs.Planning.Faults

/-!
# Queries that can be planned

What a query fetches and what its projections read is decided in different places.  They fit
together: if HAVING, ORDER BY and the outputs are derivable from what the query groups by and from
the aggregates it calls, every projection of its plan finds what it reads.

* `Select.IsDerivable` — such a query.
* `Logical.isDerivable_ofRelation` — the nodes of its tree find what they read.
* `Planning.groupingSteps_eq_error` — what grouping where the rows are read checks first.
* `Planning.plan_notInternal` — **a derivable query is planned, or it fails for a reason that is not
  internal**, whichever way of planning is taken.
-/

namespace ShardedQuery

/-! ### Derivable queries -/

namespace Select

/-- The symbols that a query sorts by. -/
def sortSymbols (q : Select) : List Symbol := q.orderBy.elim [] (·.symbols)

/-- The outermost aggregate calls of a query. -/
def outermost (q : Select) : List Symbol := q.symbols.flatMap (·.outermost)

/-- Whether the query reads rows as they are: it calls no aggregate and groups nothing. -/
def readsRows (q : Select) : Bool := q.outermost.isEmpty && q.groupBy.isNone

/-- Over rows HAVING is derivable from the outputs and the symbols to sort by; over groups every
symbol is derivable from the keys and the outermost aggregate calls. -/
structure IsDerivable (q : Select) : Prop where
  ofRows : q.readsRows = true →
    ∀ h ∈ q.having, h.DerivableFrom (q.outputs ++ q.sortSymbols)
  ofGroups : q.readsRows = false → ∀ s ∈ q.symbols, s.DerivableFrom (q.groupKeys ++ q.outermost)

instance : DecidablePred IsDerivable := fun _ =>
  decidable_of_iff (_ ∧ _) ⟨fun h => ⟨h.1, h.2⟩, fun h => ⟨h.1, h.2⟩⟩

/-- HAVING can be evaluated over the groups. -/
def HavingDerivable (q : Select) : Prop :=
  ∀ h ∈ q.having, h.DerivableFrom (q.groupKeys ++ (Split.ofSelect q).aggregates)

end Select

/-! ### What is fetched -/

theorem distinct_eq_nil {xs : List Symbol} : distinct xs = [] ↔ xs = [] := by
  constructor
  · intro h
    cases xs with
    | nil => rfl
    | cons x xs =>
      obtain ⟨y, hy, -⟩ := exists_mem_distinct (List.mem_cons_self (a := x) (l := xs))
      rw [h] at hy
      cases hy
  · rintro rfl
    rfl

namespace Split

variable {q : Select}

theorem isEmpty_aggregates (q : Select) :
    (ofSelect q).aggregates.isEmpty = q.outermost.isEmpty := by
  have haggregates : (ofSelect q).aggregates = distinct q.outermost := aggregatesOf_eq q
  rw [haggregates, Bool.eq_iff_iff, List.isEmpty_iff, List.isEmpty_iff, distinct_eq_nil]

/-- The aggregates of a query are its outermost aggregate calls, up to equality. -/
theorem exists_mem_aggregates_of_outermost {a : Symbol} (h : a ∈ q.outermost) :
    ∃ b ∈ (ofSelect q).aggregates, (b == a) = true := by
  obtain ⟨s, hs, ha⟩ := List.mem_flatMap.mp h
  exact exists_mem_aggregates hs ha

section Groups

variable (hq : q.readsRows = false)

include hq

theorem toCollect_eq :
    (ofSelect q).toCollect = distinct (q.groupKeys ++ (ofSelect q).aggregates.flatMap fun a =>
      a.arguments.filter fun arg => !arg.isConstant) := by
  have hrows : ((ofSelect q).aggregates.isEmpty && q.groupBy.isNone) = false := by
    rw [isEmpty_aggregates]
    exact hq
  exact if_neg (ne_true_of_eq_false hrows)

/-- Grouping fetches nothing else for ORDER BY. -/
theorem toCollectOf_eq : Logical.toCollectOf q = (ofSelect q).toCollect := by
  have hrows : ((ofSelect q).aggregates.isEmpty && q.groupBy.isNone) = false := by
    rw [isEmpty_aggregates]
    exact hq
  unfold Logical.toCollectOf
  cases q.orderBy with
  | none => rfl
  | some o => exact if_neg (ne_true_of_eq_false hrows)

theorem derivableFrom_key {k : Symbol} (hk : k ∈ q.groupKeys) :
    k.DerivableFrom (ofSelect q).toCollect := by
  rw [toCollect_eq hq]
  exact .member (exists_mem_distinct (List.mem_append_left _ hk))

/-- The arguments of an aggregate are fetched unless they are constants. -/
theorem argument_fetched {a arg : Symbol} (ha : a ∈ (ofSelect q).aggregates)
    (harg : arg ∈ a.arguments) :
    arg.isConstant = true ∨ ∃ b ∈ (ofSelect q).toCollect, (b == arg) = true := by
  by_cases hconstant : arg.isConstant = true
  · exact .inl hconstant
  · rw [toCollect_eq hq]
    refine .inr (exists_mem_distinct (List.mem_append_right _ ?_))
    refine List.mem_flatMap.mpr ⟨a, ha, List.mem_filter.mpr ⟨harg, ?_⟩⟩
    simpa using hconstant

theorem aggregableFrom_toCollect {a : Symbol} (ha : a ∈ (ofSelect q).aggregates) :
    a.AggregableFrom (ofSelect q).toCollect := by
  have haggregate := isAggregate_of_mem ha
  cases a with
  | call f args =>
    refine ⟨f, args, rfl, fun arg harg => ?_⟩
    rcases argument_fetched hq ha harg with hconstant | hmember
    · exact Symbol.derivableFrom_of_isConstant hconstant
    · exact .member hmember
  | _ => cases haggregate

/-- What the query computes of its groups is derivable from the keys and the aggregates. -/
theorem derivableFrom_groups (h : q.IsDerivable) {s : Symbol} (hs : s ∈ q.symbols) :
    s.DerivableFrom (q.groupKeys ++ (ofSelect q).aggregates) := by
  refine (h.ofGroups hq s hs).mono fun b hb => ?_
  rcases List.mem_append.mp hb with hb | hb
  · exact ⟨b, List.mem_append_left _ hb, Symbol.beq_refl b⟩
  · obtain ⟨c, hc, hcb⟩ := exists_mem_aggregates_of_outermost hb
    exact ⟨c, List.mem_append_right _ hc, hcb⟩

end Groups

end Split

/-! ### Trees of queries -/

namespace Logical

section Query

variable {q : Select}

theorem base_of_readsRows {relation : Relation} (hrows : relation.query.readsRows = true) :
    base relation = collect relation (toCollectOf relation.query) relation.query.filter := by
  unfold Select.readsRows at hrows
  rw [Bool.and_eq_true, Option.isNone_iff_eq_none, ← Split.isEmpty_aggregates] at hrows
  exact base_of_rows hrows.2 (List.isEmpty_iff.mp hrows.1)

/-- Rows have all outputs and all symbols to sort by among their columns. -/
theorem exists_mem_toCollectOf (hrows : q.readsRows = true) {s : Symbol}
    (hs : s ∈ q.outputs ++ q.sortSymbols) : ∃ b ∈ toCollectOf q, (b == s) = true := by
  have hrows' : ((Split.ofSelect q).aggregates.isEmpty && q.groupBy.isNone) = true := by
    rw [Split.isEmpty_aggregates]
    exact hrows
  have hcollect : (Split.ofSelect q).toCollect = distinct q.outputs := if_pos hrows'
  unfold Select.sortSymbols at hs
  unfold toCollectOf
  cases ho : q.orderBy with
  | none =>
    rw [ho] at hs
    simp only [hcollect]
    exact exists_mem_distinct (by simpa using hs)
  | some o =>
    rw [ho] at hs
    simp only [hrows', if_true, hcollect]
    rcases List.mem_append.mp hs with hs | hs
    · obtain ⟨b, hb, hbs⟩ := exists_mem_distinct hs
      obtain ⟨c, hc, hcb⟩ := exists_mem_distinct (List.mem_append_left o.symbols hb)
      exact ⟨c, hc, Symbol.beq_trans hcb hbs⟩
    · exact exists_mem_distinct (List.mem_append_right _ hs)

theorem outputs_base_of_groups {relation : Relation} (hrows : relation.query.readsRows = false) :
    (base relation).outputs =
      relation.query.groupKeys ++ (Split.ofSelect relation.query).aggregates := by
  unfold Select.readsRows at hrows
  rw [Bool.and_eq_false_iff, ← Split.isEmpty_aggregates] at hrows
  exact outputs_base (hrows.imp List.isEmpty_eq_false_iff.mp
    fun hkeys hnone => absurd (hkeys.symm.trans (by rw [hnone]; rfl)) Bool.false_ne_true)

/-- What the base of a tree computes is derivable from what the query fetches. -/
theorem isDerivable_base (relation : Relation) : (base relation).IsDerivable := by
  cases hrows : relation.query.readsRows with
  | true =>
    rw [base_of_readsRows hrows]
    trivial
  | false =>
    have hcollect := Split.toCollectOf_eq hrows
    have hkey : ∀ k ∈ relation.query.groupKeys, k.DerivableFrom (toCollectOf relation.query) :=
      fun k hk => hcollect ▸ Split.derivableFrom_key hrows hk
    have haggregate : ∀ a ∈ (Split.ofSelect relation.query).aggregates,
        a.AggregableFrom (toCollectOf relation.query) :=
      fun a ha => hcollect ▸ Split.aggregableFrom_toCollect hrows ha
    unfold Select.groupKeys at hkey
    unfold base
    cases hkeys : relation.query.groupBy with
    | some keys =>
      rw [hkeys] at hkey
      simp only [hkeys]
      exact ⟨trivial, hkey, haggregate⟩
    | none =>
      simp only [hkeys]
      split
      · trivial
      · exact ⟨trivial, haggregate⟩

/-- All symbols of a derivable query are derivable from the base of its tree. -/
theorem derivableFrom_base {relation : Relation} (h : relation.query.IsDerivable) {s : Symbol}
    (hs : s ∈ relation.query.symbols) : s.DerivableFrom (base relation).outputs := by
  cases hrows : relation.query.readsRows with
  | false =>
    rw [outputs_base_of_groups hrows]
    exact Split.derivableFrom_groups hrows h hs
  | true =>
    rw [base_of_readsRows hrows]
    have hcolumns : ∀ b ∈ relation.query.outputs ++ relation.query.sortSymbols,
        ∃ c ∈ toCollectOf relation.query, (c == b) = true :=
      fun b hb => exists_mem_toCollectOf hrows hb
    unfold Select.symbols at hs
    rcases List.mem_append.mp hs with hs | hs
    · rcases List.mem_append.mp hs with hs | hs
      · exact .member (hcolumns s (List.mem_append_left _ hs))
      · exact (h.ofRows hrows s (Option.mem_toList.mp hs)).mono hcolumns
    · exact .member (hcolumns s (List.mem_append_right _ hs))

/-- **The nodes of the tree of a derivable query find what they read.** -/
theorem isDerivable_ofRelation {relation : Relation} (h : relation.query.IsDerivable) :
    (ofRelation relation).IsDerivable := by
  have hread := fun s => derivableFrom_base (s := s) h
  have hhaving : (having relation.query (base relation)).IsDerivable := by
    unfold having
    cases hq : relation.query.having with
    | none => exact isDerivable_base relation
    | some having => exact ⟨isDerivable_base relation, hread having (Select.having_mem_symbols hq)⟩
  have hordered : (ordered relation.query (having relation.query (base relation))).IsDerivable := by
    unfold ordered
    cases hq : relation.query.orderBy with
    | none => exact hhaving
    | some o =>
      refine ⟨hhaving, fun k hk => ?_⟩
      rw [outputs_having]
      exact hread k (Select.orderBy_mem_symbols hq hk)
  have hlimited : (limited relation.query
      (ordered relation.query (having relation.query (base relation)))).IsDerivable := by
    unfold limited
    split <;> exact hordered
  rw [ofRelation_eq]
  unfold laidOut
  split
  · exact hlimited
  · refine ⟨hlimited, fun k hk => ?_⟩
    rw [outputs_limited, outputs_ordered, outputs_having]
    exact hread k (Select.output_mem_symbols hk)

/-- The one limit of the tree of a query is its own. -/
theorem limits_ofRelation (relation : Relation) :
    (ofRelation relation).limits ⊆ [(relation.query.limit, relation.query.offset)] := by
  have hbase : (base relation).limits = [] := by
    unfold base
    dsimp only
    split
    · rfl
    · split <;> rfl
  have hhaving : (having relation.query (base relation)).limits = [] := by
    unfold having
    cases relation.query.having <;> exact hbase
  have hordered : (ordered relation.query (having relation.query (base relation))).limits = [] := by
    unfold ordered
    cases relation.query.orderBy <;> exact hhaving
  have hlimited : (limited relation.query
      (ordered relation.query (having relation.query (base relation)))).limits ⊆
        [(relation.query.limit, relation.query.offset)] := by
    unfold limited
    split
    · simp [limits, hordered]
    · simp [hordered]
  rw [ofRelation_eq]
  unfold laidOut
  split <;> exact hlimited

end Query

end Logical

/-! ### The planner -/

namespace Planning

variable {env : Environment} {table : Table} {q : Select} {p : Progress}

/-- **The general way of planning fails for LIMIT and OFFSET, for the routing, or because something
is not derivable.** -/
theorem endsIn_general (relation : Relation) (p : Progress) :
    EndsIn (general env relation) p (fun _ _ => True) fun e _ =>
      env.window relation.query.limit relation.query.offset = .error e ∨
      (e.kind = .internal ∧ ¬ relation.query.IsDerivable) ∨
      (relation.isTable = false ∧ e.kind = .unsupported) ∨
      ∃ table query, relation = .table table query ∧ env.CannotRoute table e := by
  refine (Logical.endsIn_build_fault (Logical.ofRelation relation) {} p).mono (fun _ _ _ => trivial)
    fun e _ he => ?_
  cases he with
  | underivable h he => exact .inr (.inl ⟨he, fun hq => h (Logical.isDerivable_ofRelation hq)⟩)
  | window h he =>
    have hlimit := Logical.limits_ofRelation relation h
    rw [List.mem_singleton, Prod.mk.injEq] at hlimit
    exact .inl (hlimit.1 ▸ hlimit.2 ▸ he)
  | noTable h he =>
    rw [Logical.source_ofRelation] at h
    exact .inr (.inr (.inl ⟨h, he⟩))
  | routing h he =>
    rw [Logical.source_ofRelation] at h
    exact .inr (.inr (.inr ⟨_, _, h, he⟩))

/-- What grouping where the rows are read finds out before it asks for a routing. -/
def groupingSteps (env : Environment) (q : Select) :
    Except PlanningError (List Projection × Window) := do
  let split := Split.ofSelect q
  Select.checkGroupKeys q.groupKeys
  let group ← Projection.groupOf split.toCollect q.groupKeys split.aggregates .rowsToFinal .shard
  let filter ←
    match q.having with
    | some having => do
      pure [← Projection.filterOf (q.groupKeys ++ split.aggregates) having]
    | none => pure []
  let window ← env.window q.limit q.offset
  return (group :: filter, window)

/-- Keys that cannot be grouped by come first, then HAVING, then LIMIT and OFFSET. -/
theorem groupingSteps_eq_error (hrows : q.readsRows = false) {e : PlanningError} :
    groupingSteps env q = .error e ↔
      Select.checkGroupKeys q.groupKeys = .error e ∨
      Select.checkGroupKeys q.groupKeys = .ok () ∧
        ((∃ h ∈ q.having, h.readFrom (q.groupKeys ++ (Split.ofSelect q).aggregates) = .error e) ∨
          q.HavingDerivable ∧ env.window q.limit q.offset = .error e) := by
  obtain ⟨group, hgroup⟩ : ∃ group, Projection.groupOf (Split.ofSelect q).toCollect q.groupKeys
      (Split.ofSelect q).aggregates .rowsToFinal .shard = .ok group :=
    Projection.exists_groupOf .shard (fun k hk => Split.derivableFrom_key hrows hk) fun a ha =>
      Aggregation.exists_ofCall (by decide) (Split.aggregableFrom_toCollect hrows ha)
  have hwindow : ∀ filters : List Projection, ((do
      let window ← env.window q.limit q.offset
      return (group :: filters, window)) = .error e) ↔ env.window q.limit q.offset = .error e := by
    intro filters
    rw [except_bind_eq_error]
    exact ⟨fun h => h.resolve_right fun ⟨_, _, hok⟩ => (nomatch hok), .inl⟩
  unfold groupingSteps Select.HavingDerivable
  simp only [hgroup]
  refine except_bind_eq_error.trans (or_congr_right ?_)
  have hunit : ∀ P : Prop, (∃ u : Unit, Select.checkGroupKeys q.groupKeys = .ok u ∧ P) ↔
      Select.checkGroupKeys q.groupKeys = .ok () ∧ P := fun P =>
    ⟨fun ⟨_, h⟩ => h, fun h => ⟨(), h⟩⟩
  refine (hunit _).trans (and_congr_right fun _ => ?_)
  cases q.having with
  | none =>
    refine (hwindow []).trans ?_
    simp
  | some h =>
    have hfilter : ∀ f : Except PlanningError Symbol, ((do
        let filters ← pure [← (do return Projection.filter (← f) .shard)]
        let window ← env.window q.limit q.offset
        return (group :: filters, window)) = .error e) ↔
          f = .error e ∨ (∃ t, f = .ok t) ∧ env.window q.limit q.offset = .error e := by
      intro f
      cases f with
      | error e' => exact ⟨fun he => .inl (by cases he; rfl), fun he => by
          rcases he with he | ⟨⟨_, he⟩, -⟩ <;> cases he
          rfl⟩
      | ok t => exact (hwindow _).trans ⟨fun he => .inr ⟨⟨t, rfl⟩, he⟩, fun he =>
          (he.resolve_left fun he => nomatch he).2⟩
    refine (hfilter _).trans ?_
    simp [Symbol.exists_readFrom_iff]

/-- What is derivable over the groups can be laid out, with any order and window. -/
theorem endsIn_arrangeGroups (hrows : q.readsRows = false) (order : Option OrderBy)
    (horder : ∀ s ∈ order.elim [] (·.symbols), s ∈ q.symbols) (window : Window)
    (outputs : List Symbol)
    (houtputs : ∀ s ∈ outputs, s ∈ q.symbols ∨ s ∈ q.groupKeys ++ (Split.ofSelect q).aggregates)
    (p : Progress) :
    EndsIn (ofExcept (Projection.arrange (q.groupKeys ++ (Split.ofSelect q).aggregates) order
      window outputs)) p (fun _ _ => True) (PlanningError.IsMissing q.IsDerivable) := by
  refine endsIn_found (Projection.failsInternally_arrange _ _ _ _) fun hq => ?_
  refine Projection.exists_arrange window (fun s hs => ?_) fun s hs => ?_
  · rcases houtputs s hs with hs | hs
    · exact Split.derivableFrom_groups hrows hq hs
    · exact Symbol.derivableFrom_of_mem hs
  · exact Split.derivableFrom_groups hrows hq (horder s hs)

/-- **Grouping where the rows are read fails in its first steps, for the routing, or because
something is not derivable.** -/
theorem endsIn_groupOnCollectors_fault (hrows : q.readsRows = false) (p : Progress) :
    EndsIn (groupOnCollectors env table q) p (fun _ _ => True) fun e _ =>
      groupingSteps env q = .error e ∨ (e.kind = .internal ∧ ¬ q.IsDerivable) ∨
        env.CannotRoute table e := by
  have hsteps : EndsIn (ofExcept (groupingSteps env q)) p (fun _ _ => True)
      (fun e _ => groupingSteps env q = .error e) :=
    .ofExcept (fun _ _ => trivial) fun e he => he
  unfold groupOnCollectors
  refine hsteps.bind (fun e _ he => .inl he) ?_
  rintro ⟨projections, window⟩ p -
  refine (Environment.endsIn_allocateRouting_kind q.filter p).bind (fun e _ he => .inr (.inr he)) ?_
  intro routing p _
  dsimp only
  generalize hmerge : (if ((q.orderBy.bind fun o => ColumnOrder.ofOrderBy? o q.outputs).isNone &&
    !env.onHandler routing.nodes) = true then q.orderBy else none) = mergeOrder
  have hsort : ∀ s ∈ q.sortSymbols, s ∈ q.symbols := fun s hs => List.mem_append_right _ hs
  refine (endsIn_arrangeGroups hrows q.orderBy hsort _ _ (fun s hs => ?_) p).bind
    (fun e _ he => .inr (.inl he)) fun arranged p _ => ?_
  · split at hs
    · exact .inr hs
    · exact .inl (Select.output_mem_symbols hs)
  refine endsIn_newPhase.bind (fun _ _ h => h.elim) fun id p _ => ?_
  cases mergeOrder with
  | none => exact EndsIn.pure trivial
  | some o =>
    have ho : q.orderBy = some o := by
      split at hmerge
      · exact hmerge
      · cases hmerge
    refine (endsIn_arrangeGroups hrows (some o) (fun s hs => Select.orderBy_mem_symbols ho hs)
      window q.outputs (fun s hs => .inl (Select.output_mem_symbols hs)) p).bind
      (fun e _ he => .inr (.inl he)) fun toFinal p _ => ?_
    exact (endsIn_merge _ _ _ _).mono (fun _ _ _ => trivial) fun _ _ h => h.elim

theorem havingDerivable_of_isDerivable (hrows : q.readsRows = false) (hq : q.IsDerivable) :
    q.HavingDerivable :=
  fun _ hh => Split.derivableFrom_groups hrows hq (Select.having_mem_symbols hh)

/-- The first steps of grouping a derivable query validate it. -/
theorem failsOnly_groupingSteps (hrows : q.readsRows = false) (hq : q.IsDerivable) :
    FailsOnly (fun e => e.kind = .validation) (groupingSteps env q) := by
  intro e he
  rcases (groupingSteps_eq_error hrows).mp he with he | ⟨-, ⟨h, hh, he⟩ | ⟨-, he⟩⟩
  · exact Select.failsOnly_checkGroupKeys _ e he
  · obtain ⟨t, ht⟩ := Symbol.exists_readFrom (havingDerivable_of_isDerivable hrows hq h hh)
    rw [ht] at he
    cases he
  · exact env.failsOnly_window _ _ e he

section NotInternal

variable (hq : q.IsDerivable)
  (heligible : table.granularity = .cluster → env.cluster.members.eligible ≠ [])

include heligible

theorem endsIn_count?_notInternal (p : Progress) :
    EndsIn (count? env table q) p (Tries p fun _ _ => True) (fun e _ => e.kind ≠ .internal) := by
  unfold count?
  split
  · exact EndsIn.pure rfl
  · have hwindow : EndsIn (ofExcept (env.window q.limit q.offset)) p (fun _ p' => p' = p)
        (fun e _ => e.kind ≠ .internal) :=
      .ofExcept (fun _ _ => rfl) fun e he =>
        ne_of_eq_of_ne (env.failsOnly_window _ _ e he) (by decide)
    refine hwindow.bind (fun _ _ h => h) ?_
    rintro window _ rfl
    split
    · exact EndsIn.pure rfl
    · split
      · exact EndsIn.throw (by decide)
      · refine (Environment.endsIn_allocateRouting_kind q.filter _).bind
          (fun e _ he => he.kind_ne_internal heligible) fun routing p' _ => ?_
        exact endsIn_newPhase.bind (fun _ _ h => h.elim) fun id p'' _ => trivial

include hq in
theorem endsIn_localGroups?_notInternal (p : Progress) :
    EndsIn (localGroups? env table q) p (Tries p fun _ _ => True)
      (fun e _ => e.kind ≠ .internal) := by
  unfold localGroups?
  split
  · exact EndsIn.pure rfl
  · rename_i keys hkeys
    have hrows : q.readsRows = false := by simp [Select.readsRows, hkeys]
    split
    · exact EndsIn.pure rfl
    · split
      · exact EndsIn.throw (by decide)
      · refine (endsIn_groupOnCollectors_fault hrows p).bind (fun e _ he => ?_)
          fun plan p' _ => trivial
        rcases he with he | ⟨-, hne⟩ | he
        · exact ne_of_eq_of_ne (failsOnly_groupingSteps hrows hq e he) (by decide)
        · exact absurd hq hne
        · exact he.kind_ne_internal heligible

end NotInternal

/-- **A derivable query over a table is planned, or it fails for a reason that is not internal**:
every projection of its plan finds what it reads, whichever way of planning is taken and whatever
happened before.  A table that any node may answer for needs a node that can. -/
theorem plan_notInternal (env : Environment) {table : Table} {q : Select} (hq : q.IsDerivable)
    (heligible : table.granularity = .cluster → env.cluster.members.eligible ≠ [])
    (p : Progress) :
    EndsIn (plan env (.table table q)) p (fun _ _ => True) (fun e _ => e.kind ≠ .internal) := by
  refine endsIn_plan_of ?_ ?_ ?_
  · rintro _ _ h
    cases h
    exact endsIn_count?_notInternal heligible p
  · rintro _ _ h
    cases h
    exact endsIn_localGroups?_notInternal hq heligible p
  · refine (endsIn_general (.table table q) p).mono (fun _ _ h => h) fun e _ he => ?_
    rcases he with he | ⟨-, hne⟩ | ⟨hno, -⟩ | ⟨table', q', h, he⟩
    · exact ne_of_eq_of_ne (env.failsOnly_window _ _ e he) (by decide)
    · exact absurd hq hne
    · cases hno
    · cases h
      exact he.kind_ne_internal heligible

/-- Groups by an expression, and computes with the key, with aggregates and with a parameter. -/
def scaledSums : Select where
  outputs := [.call "add" [.call "abs" [load], .call "count" []],
    .call "round" [.call "sum" [.call "multiply" [load, .parameter 0]]]]
  groupBy := some [.call "abs" [load]]
  having := some (.call "gt" [.call "count" [], .parameter 0])
  orderBy := some (.descending (.call "count" []))
  limit := some (.parameter 0)

/-- Such a query over a table that either of two nodes answers for. -/
theorem plan_notInternal_scaledSums :
    scaledSums.IsDerivable ∧ twoNodes.cluster.members.eligible ≠ [] ∧
      EndsIn (plan twoNodes (.table (.ofCluster "sys" "cluster") scaledSums)) (.start 0)
        (fun _ _ => True) (fun e _ => e.kind ≠ .internal) :=
  ⟨by decide +kernel, by decide +kernel,
    plan_notInternal twoNodes (by decide +kernel) (fun _ => by decide +kernel) (.start 0)⟩

end Planning

end ShardedQuery
