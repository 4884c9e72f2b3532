import ShardedQuery.Proofs.Planning.Failures

/-!
# The phases of a plan

A plan has one phase or two, and the ids of its phases are those that come next.  A second phase
gathers everything on the handler, so that there is never a third.

* `Plan.HasPhases` — the phases of a plan, and the id that comes next.
* `Logical.KeepsPhases` — a step above the leaf adds a phase only to rows that are not on the handler,
  and if it fails, it does so internally and changes nothing itself.
* `Logical.endsIn_build`, `Planning.endsIn_plan` — **a plan takes the next ids; a failure that is not
  internal changes nothing**.
-/

namespace ShardedQuery

/-! ### Phases -/

namespace Plan

/-- The plan has one phase, or two if all its rows are on the handler.  Their ids are the first one
and the one after it, and the next one after these is `next`. -/
def HasPhases (env : Environment) (first next : UInt32) (plan : Plan) : Prop :=
  plan.phaseIds = [first] ∧ next = first + 1 ∨
    plan.phaseIds = [first, first + 1] ∧ next = first + 2 ∧
      env.onHandler plan.delivery.nodes = true

/-- The two plans have the same phases, and their rows come from the same nodes. -/
def SamePhases (plan plan' : Plan) : Prop :=
  plan'.phaseIds = plan.phaseIds ∧ plan'.delivery.nodes = plan.delivery.nodes

variable {env : Environment} {first next : UInt32} {plan plan' : Plan}

theorem SamePhases.refl (plan : Plan) : plan.SamePhases plan := ⟨rfl, rfl⟩

theorem SamePhases.hasPhases (hsame : plan.SamePhases plan') (h : plan.HasPhases env first next) :
    plan'.HasPhases env first next := by
  unfold HasPhases
  rw [hsame.1, hsame.2]
  exact h

theorem samePhases_addProjection {p : Projection} {window : Option Window}
    {order : Option ColumnOrder} (h : plan.addProjection p window order = .ok plan') :
    plan.SamePhases plan' := by
  cases plan <;> cases h <;> exact ⟨rfl, rfl⟩

theorem samePhases_clearOrder (plan : Plan) : plan.SamePhases plan.clearOrder := by
  cases plan <;> exact ⟨rfl, rfl⟩

end Plan

/-! ### One step -/

/-- How planning fails where it has begun to change the progress: not at all changed, or internally
and with at most two ids used up. -/
def Progress.FailsTo (p : Progress) (e : PlanningError) (q : Progress) : Prop :=
  q = p ∨ e.kind = .internal ∧
    (q.nextPhase = p.nextPhase ∨ q.nextPhase = p.nextPhase + 1 ∨ q.nextPhase = p.nextPhase + 2)

namespace Logical

/-- A step above the leaf of a tree: it keeps the phases of the plan or adds one that was missing,
and when it fails, then internally and without a change. -/
def KeepsPhases (env : Environment) (step : Plan → Planning Plan) : Prop :=
  ∀ (first : UInt32) (plan : Plan) (p : Progress), plan.HasPhases env first p.nextPhase →
    Planning.EndsIn (step plan) p (fun plan' q => plan'.HasPhases env first q.nextPhase)
      (fun e q => e.kind = .internal ∧ q = p)

variable {env : Environment}

/-- A step that does without state. -/
theorem keepsPhases_ofExcept {f : Plan → Except PlanningError Plan}
    (hfails : ∀ plan, FailsInternally (f plan))
    (hsame : ∀ plan plan', f plan = .ok plan' → plan.SamePhases plan') :
    KeepsPhases env fun plan => Planning.ofExcept (f plan) := by
  intro first plan p hphases
  refine .ofExcept (fun plan' h => ?_) (fun e h => ⟨hfails plan e h, rfl⟩)
  exact (hsame plan plan' h).hasPhases hphases

/-- A merge adds a phase to a plan of one, and after it all rows are on the handler. -/
theorem endsIn_mergeOnHandler {plan : Plan} {p : Progress} {first : UInt32}
    (hphases : plan.HasPhases env first p.nextPhase)
    (hnodes : ¬ env.onHandler plan.delivery.nodes = true) (toFinal : Projection) (width : Nat)
    (maxRows : Option Nat) :
    Planning.EndsIn (env.mergeOnHandler plan toFinal width maxRows) p
      (fun plan' q => plan'.HasPhases env first q.nextPhase ∧
        ∃ phase delivery, plan' = .merge plan phase delivery)
      (fun _ _ => False) := by
  refine Planning.endsIn_newPhase.bind (fun _ _ h => h) ?_
  rintro id q ⟨rfl, hnext⟩
  refine Planning.EndsIn.pure ⟨.inr ⟨?_, ?_, env.onHandler_handler⟩, _, _, rfl⟩
  · rcases hphases with ⟨hids, hid⟩ | ⟨-, -, honHandler⟩
    · show (plan.phases ++ [_]).map PhaseSummary.id = _
      rw [List.map_append, show plan.phases.map PhaseSummary.id = [first] from hids, hid]
      rfl
    · exact absurd honHandler hnodes
  · rcases hphases with ⟨-, hid⟩ | ⟨-, -, honHandler⟩
    · rw [hnext, hid, UInt32.add_assoc]
      rfl
    · exact absurd honHandler hnodes

theorem keepsPhases_inTiers {full toPartial toFinal : Except PlanningError Projection}
    (hfull : FailsInternally full) (hpartial : FailsInternally toPartial)
    (hfinal : FailsInternally toFinal) (width : Nat) (maxRows : Option Nat) :
    KeepsPhases env (inTiers env full toPartial toFinal width maxRows) := by
  intro first plan p hphases
  unfold inTiers
  split
  · refine .ofExcept (fun plan' h => ?_) (fun e h => ⟨?_, rfl⟩)
    · obtain ⟨f, -, hadd⟩ := except_bind_eq_ok.mp h
      exact (Plan.samePhases_addProjection hadd).hasPhases hphases
    · exact hfull.bind (fun f => plan.failsInternally_addProjection f none none) e h
  · rename_i hnodes
    have htiers : Planning.EndsIn (Planning.ofExcept do
          let toPartial ← toPartial
          let plan ← plan.addProjection toPartial none none
          let toFinal ← toFinal
          return (plan, toFinal)) p
        (fun added q => q = p ∧ plan.SamePhases added.1)
        (fun e q => e.kind = .internal ∧ q = p) := by
      refine .ofExcept (fun added h => ⟨rfl, ?_⟩) (fun e h => ⟨?_, rfl⟩)
      · obtain ⟨f, -, h⟩ := except_bind_eq_ok.mp h
        obtain ⟨plan', hadd, h⟩ := except_bind_eq_ok.mp h
        obtain ⟨g, -, h⟩ := except_bind_eq_ok.mp h
        cases h
        exact Plan.samePhases_addProjection hadd
      · refine FailsInternally.bind hpartial (fun f => ?_) e h
        refine (plan.failsInternally_addProjection f none none).bind fun plan' => ?_
        exact hfinal.bind fun g => .ok _
    refine htiers.bind (fun _ _ h => h) ?_
    rintro ⟨added, toFinal⟩ q ⟨rfl, hsame⟩
    rw [← hsame.2] at hnodes
    exact (endsIn_mergeOnHandler (hsame.hasPhases hphases) hnodes _ _ _).mono
      (fun _ _ h => h.1) (fun _ _ h => h.elim)

theorem keepsPhases_aggregateStep (inputs aggregates : List Symbol) :
    KeepsPhases env (aggregateStep env inputs aggregates) :=
  keepsPhases_inTiers (Projection.failsInternally_aggregationOf _ _ _ _)
    (Projection.failsInternally_aggregationOf _ _ _ _)
    (Projection.failsInternally_aggregationOf _ _ _ _) _ _

theorem keepsPhases_groupStep (inputs keys aggregates : List Symbol) :
    KeepsPhases env (groupStep env inputs keys aggregates) :=
  keepsPhases_inTiers (Projection.failsInternally_groupOf _ _ _ _ _)
    (Projection.failsInternally_groupOf _ _ _ _ _) (Projection.failsInternally_groupOf _ _ _ _ _) _ _

theorem keepsPhases_filterStep (inputs : List Symbol) (having : Symbol) :
    KeepsPhases env fun plan => Planning.ofExcept (filterStep inputs having plan) := by
  refine keepsPhases_ofExcept (fun plan => ?_) (fun plan plan' h => ?_)
  · exact (Projection.failsInternally_filterOf inputs having).bind fun f =>
      plan.failsInternally_addProjection f none none
  · obtain ⟨f, -, hadd⟩ := except_bind_eq_ok.mp h
    exact Plan.samePhases_addProjection hadd

theorem keepsPhases_orderStep (inputs : List Symbol) (o : OrderBy) (window : Window) :
    KeepsPhases env fun plan => Planning.ofExcept (orderStep inputs o window plan) := by
  refine keepsPhases_ofExcept (fun plan => ?_) (fun plan plan' h => ?_)
  · unfold orderStep
    split
    · exact .ok plan
    · exact (Projection.failsInternally_arrange _ _ _ _).bind fun sorted =>
        plan.failsInternally_addProjection sorted none _
  · unfold orderStep at h
    split at h
    · cases h
      exact .refl plan
    · obtain ⟨sorted, -, hadd⟩ := except_bind_eq_ok.mp h
      exact Plan.samePhases_addProjection hadd

theorem keepsPhases_limitStep (inputs : List Symbol) (window : Window) :
    KeepsPhases env fun plan => Planning.ofExcept (limitStep env inputs window plan) := by
  refine keepsPhases_ofExcept (fun plan => ?_) (fun plan plan' h => ?_)
  · unfold limitStep
    split <;> exact plan.failsInternally_addProjection _ _ _
  · unfold limitStep at h
    split at h <;> exact Plan.samePhases_addProjection h

theorem keepsPhases_evalStep (inputs outputs : List Symbol) :
    KeepsPhases env (evalStep env inputs outputs) := by
  intro first plan p hphases
  have heval := Projection.failsInternally_arrange inputs none .unbounded outputs
  refine (Planning.endsIn_of_failsInternally heval p).bind (fun _ _ h => h) ?_
  rintro eval _ rfl
  have hadd : ∀ order, KeepsPhases env fun plan =>
      Planning.ofExcept (plan.addProjection eval none order) := fun order =>
    keepsPhases_ofExcept (fun plan => plan.failsInternally_addProjection eval none order)
      fun _ _ h => Plan.samePhases_addProjection h
  dsimp only
  split
  · exact hadd none first plan _ hphases
  · split
    · exact hadd _ first plan _ hphases
    · split
      · refine .ofExcept (fun plan' h => ?_) (fun e h => ⟨?_, rfl⟩)
        · obtain ⟨added, hadded, h⟩ := except_bind_eq_ok.mp h
          cases h
          exact (added.samePhases_clearOrder).hasPhases
            ((Plan.samePhases_addProjection hadded).hasPhases hphases)
        · exact (plan.failsInternally_addProjection eval none none).bind (fun _ => .ok _) e h
      · rename_i hnodes
        refine (endsIn_mergeOnHandler hphases hnodes _ _ _).bind (fun _ _ h => h.elim) ?_
        -- a projection can always be added to a merge
        rintro merged q ⟨hmerged, phase, delivery, rfl⟩
        exact .ofExcept (fun plan' h => (Plan.samePhases_addProjection h).hasPhases hmerged)
          (fun e h => nomatch h)

/-! ### The tree -/

/-- A step on the plan of a source. -/
theorem KeepsPhases.endsIn_bind {step : Plan → Planning Plan} (hstep : KeepsPhases env step)
    {source : Planning Plan} {p : Progress}
    (hsource : Planning.EndsIn source p (fun plan q => plan.HasPhases env p.nextPhase q.nextPhase)
      p.FailsTo) :
    Planning.EndsIn (source >>= step) p
      (fun plan q => plan.HasPhases env p.nextPhase q.nextPhase) p.FailsTo := by
  refine hsource.bind (fun _ _ h => h) fun plan q hphases => ?_
  refine (hstep p.nextPhase plan q hphases).mono (fun _ _ h => h) ?_
  rintro e _ ⟨hinternal, rfl⟩
  refine .inr ⟨hinternal, .inr ?_⟩
  exact hphases.imp (fun h => h.2) (fun h => h.2.1)

/-- **The plan of a tree takes the next ids**, and a failure that is not internal changes nothing. -/
theorem endsIn_build (t : Logical) (request : Request) (p : Progress) :
    Planning.EndsIn (t.build env request) p
      (fun plan q => plan.HasPhases env p.nextPhase q.nextPhase) p.FailsTo := by
  induction t generalizing request p with
  | collect relation toCollect clause =>
    cases relation with
    | derived name query => exact Planning.EndsIn.throw (.inl rfl)
    | table table query =>
      refine (env.endsIn_allocateRouting table clause p).bind (fun _ _ h => .inl h) ?_
      intro routing q hrouting
      refine Planning.endsIn_newPhase.bind (fun _ _ h => h.elim) ?_
      rintro id q' ⟨rfl, hnext⟩
      rw [hrouting] at hnext
      exact Planning.EndsIn.pure (.inl ⟨congrArg ([·]) hrouting, hnext⟩)
  | aggregate s aggregates ih => exact (keepsPhases_aggregateStep _ _).endsIn_bind (ih {} p)
  | group s keys aggregates ih => exact (keepsPhases_groupStep _ _ _).endsIn_bind (ih {} p)
  | filter s having ih => exact (keepsPhases_filterStep _ _).endsIn_bind (ih request p)
  | order s o ih => exact (keepsPhases_orderStep _ _ _).endsIn_bind (ih _ p)
  | limit s n m ih =>
    refine (Planning.endsIn_ofExcept (env.window n m) p).bind (fun _ _ h => .inl h) ?_
    rintro window _ rfl
    exact (keepsPhases_limitStep _ _).endsIn_bind (ih _ _)
  | eval s outputs ih => exact (keepsPhases_evalStep _ _).endsIn_bind (ih request p)

end Logical

/-! ### Special plans -/

namespace Planning

variable {env : Environment} {p : Progress}

theorem endsIn_count? (table : Table) (query : Select) :
    EndsIn (count? env table query) p
      (Tries p fun plan q => plan.HasPhases env p.nextPhase q.nextPhase) p.FailsTo := by
  unfold count?
  split
  · exact EndsIn.pure rfl
  · refine (endsIn_ofExcept _ p).bind (fun _ _ h => .inl h) ?_
    rintro window _ rfl
    split
    · exact EndsIn.pure rfl
    · split
      · exact EndsIn.throw (.inl rfl)
      · refine (env.endsIn_allocateRouting table query.filter _).bind (fun _ _ h => .inl h) ?_
        intro routing q hrouting
        refine endsIn_newPhase.bind (fun _ _ h => h.elim) ?_
        rintro id q' ⟨rfl, hnext⟩
        rw [hrouting] at hnext
        exact EndsIn.pure (.inl ⟨congrArg ([·]) hrouting, hnext⟩)

theorem endsIn_groupOnCollectors (table : Table) (query : Select) :
    EndsIn (groupOnCollectors env table query) p
      (fun plan q => plan.HasPhases env p.nextPhase q.nextPhase) p.FailsTo := by
  unfold groupOnCollectors
  refine (endsIn_ofExcept _ p).bind (fun _ _ h => .inl h) ?_
  rintro ⟨projections, window⟩ p rfl
  refine (env.endsIn_allocateRouting table query.filter p).bind (fun _ _ h => .inl h) ?_
  intro routing q hrouting
  dsimp only
  generalize hmergeOrder :
    (if ((query.orderBy.bind fun o => ColumnOrder.ofOrderBy? o query.outputs).isNone &&
        !env.onHandler routing.nodes) = true
      then query.orderBy else none) = mergeOrder
  have harrange := fun (inputs : List Symbol) (order : Option OrderBy) (window : Window)
      (outputs : List Symbol) => endsIn_of_failsInternally
        (Projection.failsInternally_arrange inputs order window outputs)
  refine (harrange _ _ _ _ q).bind (fun e q' h => .inr ⟨h.1, .inl (h.2 ▸ hrouting)⟩) ?_
  rintro arranged q rfl
  refine endsIn_newPhase.bind (fun _ _ h => h.elim) ?_
  rintro id q' ⟨rfl, hnext⟩
  rw [hrouting] at hnext
  have hphases : ∀ phase : CollectPhase, phase.id = q.nextPhase → ∀ window width maxRows order,
      (Plan.ofCollect phase window width maxRows order).HasPhases env p.nextPhase q'.nextPhase :=
    fun phase hid _ _ _ _ => .inl ⟨congrArg ([·]) (hid.trans hrouting), hnext⟩
  cases mergeOrder with
  | none => exact EndsIn.pure (hphases _ rfl _ _ _ _)
  | some o =>
    refine (harrange _ _ _ _ q').bind (fun e q'' h => .inr ⟨h.1, .inr (.inl (h.2 ▸ hnext))⟩) ?_
    rintro toFinal _ rfl
    have hnodes : ¬ env.onHandler routing.nodes = true := by
      intro honHandler
      simp [honHandler] at hmergeOrder
    refine (Logical.endsIn_mergeOnHandler (hphases _ rfl _ _ _ _) ?_ _ _ _).mono
      (fun _ _ h => h.1) fun _ _ h => h.elim
    exact hnodes

theorem endsIn_localGroups? (table : Table) (query : Select) :
    EndsIn (localGroups? env table query) p
      (Tries p fun plan q => plan.HasPhases env p.nextPhase q.nextPhase) p.FailsTo := by
  unfold localGroups?
  split
  · exact EndsIn.pure rfl
  · split
    · exact EndsIn.pure rfl
    · split
      · exact EndsIn.throw (.inl rfl)
      · exact (endsIn_groupOnCollectors table query).bind (fun _ _ h => h) fun _ _ h => EndsIn.pure h

/-- **A plan takes the next ids**, and a failure that is not internal changes nothing. -/
theorem endsIn_plan (env : Environment) (relation : Relation) (p : Progress) :
    EndsIn (plan env relation) p (fun plan q => plan.HasPhases env p.nextPhase q.nextPhase)
      p.FailsTo :=
  endsIn_plan_of (fun table query _ => endsIn_count? table query)
    (fun table query _ => endsIn_localGroups? table query) (Logical.endsIn_build _ _ _)

end Planning

end ShardedQuery
