import ShardedQuery.Proofs.Planning.LocalGroups
import ShardedQuery.Proofs.Planning.PhaseIds

/-!
# One plan after the other

Several queries are planned with one progress, and some of them may fail.  No phase id is taken twice,
and a failure that is not internal is as if the query had never been there.

* `Planning.calls` — the calls of the planner for some relations in a row.
* `Planning.Call.idsTaken` — the phase ids that are used up in a call.
* `Planning.call_spec`, `Planning.pairwise_idsTaken` — one call, and many.
* `Planning.plan_isAtomic` — **a plan takes the next ids, and a failure changes nothing**, in one call
  and in any sequence of calls.
-/

namespace ShardedQuery

/-- The ids of two more phases are still numbers. -/
def Progress.HasRoom (p : Progress) : Prop := p.nextPhase.toNat + 2 < 2 ^ 32

instance (p : Progress) : Decidable p.HasRoom := inferInstanceAs (Decidable (_ < _))

namespace Planning

/-- A call of the planner: the progress before, what comes out, and the progress after. -/
structure Call where
  before : Progress
  outcome : Except PlanningError Plan
  after : Progress

/-- The call of the planner for a relation. -/
def call (env : Environment) (p : Progress) (relation : Relation) : Call :=
  match plan env relation p with
  | .ok plan q => ⟨p, .ok plan, q⟩
  | .error e q => ⟨p, .error e, q⟩

/-- The progress after some relations in a row. -/
def progressAfter (env : Environment) (p : Progress) (relations : List Relation) : Progress :=
  relations.foldl (fun p relation => (call env p relation).after) p

/-- The calls of the planner for some relations in a row. -/
def calls (env : Environment) : Progress → List Relation → List Call
  | _, [] => []
  | p, relation :: relations =>
    call env p relation :: calls env (call env p relation).after relations

/-- The phase ids that are used up in a call, whatever comes out. -/
def Call.idsTaken (c : Call) : List Nat :=
  List.range' c.before.nextPhase.toNat (c.after.nextPhase.toNat - c.before.nextPhase.toNat)

variable {env : Environment} {p q : Progress} {relation : Relation}

/-! ### One call -/

theorem toNat_nextPhase (hroom : p.HasRoom) :
    (p.nextPhase + 1).toNat = p.nextPhase.toNat + 1 ∧
      (p.nextPhase + 2).toNat = p.nextPhase.toNat + 2 := by
  unfold Progress.HasRoom at hroom
  rw [UInt32.toNat_add, UInt32.toNat_add]
  have hone : p.nextPhase.toNat + 1 < 2 ^ 32 := by omega
  exact ⟨Nat.mod_eq_of_lt hone, Nat.mod_eq_of_lt hroom⟩

/-- The ids of a plan are the next ones. -/
theorem ids_of_hasPhases {plan : Plan} (hroom : p.HasRoom)
    (h : plan.HasPhases env p.nextPhase q.nextPhase) :
    ∃ k, (k = 1 ∨ k = 2) ∧ plan.phaseIds.map UInt32.toNat = List.range' p.nextPhase.toNat k ∧
      q.nextPhase.toNat = p.nextPhase.toNat + k := by
  obtain ⟨hone, htwo⟩ := toNat_nextPhase hroom
  rcases h with ⟨hids, hnext⟩ | ⟨hids, hnext, -⟩
  · exact ⟨1, .inl rfl, by rw [hids]; rfl, by rw [hnext, hone]⟩
  · refine ⟨2, .inr rfl, ?_, by rw [hnext, htwo]⟩
    rw [hids, List.map_cons, List.map_cons, List.map_nil, hone]
    rfl

theorem before_call (env : Environment) (p : Progress) (relation : Relation) :
    (call env p relation).before = p := by
  unfold call
  cases plan env relation p <;> rfl

/-- **One call**: at most two ids are used up, and they are those of the plan. -/
theorem call_spec (env : Environment) (relation : Relation) (hroom : p.HasRoom) :
    let c := call env p relation
    (∃ k ≤ 2, c.after.nextPhase.toNat = p.nextPhase.toNat + k) ∧
      ∀ plan, c.outcome = .ok plan → plan.phaseIds.map UInt32.toNat = c.idsTaken := by
  have hplan := endsIn_plan env relation p
  unfold EndsIn at hplan
  unfold call
  cases hresult : plan env relation p with
  | ok plan q =>
    rw [hresult] at hplan
    obtain ⟨k, hk, hids, hnext⟩ := ids_of_hasPhases hroom hplan
    refine ⟨⟨k, by omega, hnext⟩, ?_⟩
    rintro _ ⟨⟩
    rw [hids, Call.idsTaken, hnext, Nat.add_sub_cancel_left]
  | error e q =>
    rw [hresult] at hplan
    obtain ⟨hone, htwo⟩ := toNat_nextPhase hroom
    refine ⟨?_, fun _ h => nomatch h⟩
    rcases hplan with rfl | ⟨-, hnext | hnext | hnext⟩
    · exact ⟨0, by omega, rfl⟩
    · exact ⟨0, by omega, congrArg UInt32.toNat hnext⟩
    · exact ⟨1, by omega, (congrArg UInt32.toNat hnext).trans hone⟩
    · exact ⟨2, by omega, (congrArg UInt32.toNat hnext).trans htwo⟩

/-! ### Many calls -/

theorem calls_append (env : Environment) (p : Progress) (before after : List Relation) :
    calls env p (before ++ after) =
      calls env p before ++ calls env (progressAfter env p before) after := by
  induction before generalizing p with
  | nil => rfl
  | cons relation before ih =>
    rw [List.cons_append, calls, calls, ih, List.cons_append]
    rfl

theorem length_calls (env : Environment) (p : Progress) (relations : List Relation) :
    (calls env p relations).length = relations.length := by
  induction relations generalizing p with
  | nil => rfl
  | cons relation relations ih => rw [calls, List.length_cons, ih, List.length_cons]

/-- What is used up later comes after what is used up now. -/
theorem le_of_mem_idsTaken {relations : List Relation}
    (hroom : ∀ c ∈ calls env p relations, c.before.HasRoom) {id : Nat}
    (hid : id ∈ (calls env p relations).flatMap Call.idsTaken) : p.nextPhase.toNat ≤ id := by
  induction relations generalizing p with
  | nil => cases hid
  | cons relation relations ih =>
    rw [calls, List.forall_mem_cons] at hroom
    rw [calls, List.flatMap_cons, List.mem_append] at hid
    rw [before_call] at hroom
    obtain ⟨⟨k, -, hafter⟩, -⟩ := call_spec env relation hroom.1
    rcases hid with hnow | hlater
    · rw [Call.idsTaken, List.mem_range'_1, before_call] at hnow
      exact hnow.1
    · have hle := ih hroom.2 hlater
      omega

/-- **No id is used up twice**, by all calls together. -/
theorem pairwise_idsTaken {relations : List Relation}
    (hroom : ∀ c ∈ calls env p relations, c.before.HasRoom) :
    ((calls env p relations).flatMap Call.idsTaken).Pairwise (· < ·) := by
  induction relations generalizing p with
  | nil => exact List.Pairwise.nil
  | cons relation relations ih =>
    rw [calls, List.forall_mem_cons] at hroom
    rw [calls, List.flatMap_cons, List.pairwise_append]
    refine ⟨List.pairwise_lt_range', ih hroom.2, ?_⟩
    intro now hnow later hlater
    have hle := le_of_mem_idsTaken hroom.2 hlater
    rw [before_call] at hroom
    obtain ⟨⟨k, -, hafter⟩, -⟩ := call_spec env relation hroom.1
    rw [Call.idsTaken, List.mem_range'_1, before_call] at hnow
    omega

theorem ids_of_mem_calls {relations : List Relation}
    (hroom : ∀ c ∈ calls env p relations, c.before.HasRoom) {c : Call}
    (hc : c ∈ calls env p relations) {plan : Plan} (hplan : c.outcome = .ok plan) :
    plan.phaseIds.map UInt32.toNat = c.idsTaken := by
  induction relations generalizing p with
  | nil => cases hc
  | cons relation relations ih =>
    rw [calls, List.forall_mem_cons, before_call] at hroom
    rw [calls, List.mem_cons] at hc
    rcases hc with rfl | hc
    · exact (call_spec env relation hroom.1).2 plan hplan
    · exact ih hroom.2 hc

/-- A query that fails without changing anything can be left out. -/
theorem calls_of_unchanged (before after : List Relation)
    (hsame : (call env (progressAfter env p before) relation).after = progressAfter env p before) :
    calls env p (before ++ after) =
        (calls env p (before ++ relation :: after)).eraseIdx before.length ∧
      progressAfter env p (before ++ after) = progressAfter env p (before ++ relation :: after) := by
  constructor
  · rw [calls_append, calls_append, calls, hsame,
      List.eraseIdx_append_of_length_le (Nat.le_of_eq (length_calls env p before)), length_calls,
      Nat.sub_self]
    rfl
  · unfold progressAfter at hsame ⊢
    rw [List.foldl_append, List.foldl_append, List.foldl_cons, hsame]

/-! ### Planning -/

/-- **Planning takes ids in order, and a failure that is not internal changes nothing.**

* In one call, a plan has the next id or the next two, and these are used up; a failure that is not
  internal leaves the progress as it was, with its ids, its routings and its random stream.
* In any sequence of calls, the ids that are used up are strictly increasing, whether for a plan or in
  vain, and the ids of a plan are those that are used up in its call.
* A query that fails, but not internally, can be left out of a sequence: all other calls and the
  progress in the end are the same. -/
theorem plan_isAtomic (env : Environment) :
    (∀ p relation, p.HasRoom →
      match plan env relation p with
      | .ok plan q => ∃ k, (k = 1 ∨ k = 2) ∧
          plan.phaseIds.map UInt32.toNat = List.range' p.nextPhase.toNat k ∧
          q.nextPhase.toNat = p.nextPhase.toNat + k
      | .error e q => e.kind ≠ .internal → q = p) ∧
    (∀ p relations, (∀ c ∈ calls env p relations, c.before.HasRoom) →
      ((calls env p relations).flatMap Call.idsTaken).Pairwise (· < ·) ∧
      ∀ c ∈ calls env p relations, ∀ plan, c.outcome = .ok plan →
        plan.phaseIds.map UInt32.toNat = c.idsTaken) ∧
    ∀ p before relation after e q,
      plan env relation (progressAfter env p before) = .error e q → e.kind ≠ .internal →
      calls env p (before ++ after) =
          (calls env p (before ++ relation :: after)).eraseIdx before.length ∧
        progressAfter env p (before ++ after) =
          progressAfter env p (before ++ relation :: after) := by
  refine ⟨?_, ?_, ?_⟩
  · intro p relation hroom
    have hplan := endsIn_plan env relation p
    unfold EndsIn at hplan
    cases hresult : plan env relation p with
    | ok plan q =>
      rw [hresult] at hplan
      exact ids_of_hasPhases hroom hplan
    | error e q =>
      rw [hresult] at hplan
      exact fun hexternal => hplan.resolve_right fun h => hexternal h.1
  · intro p relations hroom
    exact ⟨pairwise_idsTaken hroom, fun c hc plan => ids_of_mem_calls hroom hc⟩
  · intro p before relation after e q hresult hexternal
    refine calls_of_unchanged before after ?_
    have hplan := endsIn_plan env relation (progressAfter env p before)
    unfold EndsIn at hplan
    rw [hresult] at hplan
    unfold call
    rw [hresult]
    exact hplan.resolve_right fun h => hexternal h.1

/-- A grouping in two phases, planned before and after a query whose index is not there. -/
theorem plan_isAtomic_lostIndex :
    let env := twoShards cityIndex
    let grouping : Relation := .table ((Table.ofDocuments "doc" "t").withClusteredBy "city") topCity
    let lost : Relation := .table (Table.ofDocuments "doc" "u") topCity
    (∃ plan' q, plan env grouping (.start 0) = .ok plan' q ∧ ∃ k, (k = 1 ∨ k = 2) ∧
      plan'.phaseIds.map UInt32.toNat = List.range' 0 k ∧ q.nextPhase.toNat = 0 + k) ∧
    ((calls env (.start 0) [grouping, lost, grouping]).flatMap Call.idsTaken).Pairwise (· < ·) ∧
    calls env (.start 0) [grouping, grouping] =
      (calls env (.start 0) [grouping, lost, grouping]).eraseIdx 1 := by
  intro env grouping lost
  obtain ⟨hone, hmany, hretry⟩ := plan_isAtomic env
  have hgrouping : EndsIn (plan env grouping) (.start 0) (fun _ _ => True) (fun _ _ => False) := by
    decide +kernel
  have hlost : EndsIn (plan env lost) (progressAfter env (.start 0) [grouping]) (fun _ _ => False)
      (fun e _ => e.kind ≠ .internal) := by decide +kernel
  refine ⟨?_, (hmany (.start 0) [grouping, lost, grouping] (by decide +kernel)).1, ?_⟩
  · have hids := hone (.start 0) grouping (by decide)
    unfold EndsIn at hgrouping
    cases hresult : plan env grouping (.start 0) with
    | ok plan' q =>
      rw [hresult] at hids
      exact ⟨plan', q, rfl, hids⟩
    | error e q =>
      rw [hresult] at hgrouping
      exact hgrouping.elim
  · unfold EndsIn at hlost
    cases hresult : plan env lost (progressAfter env (.start 0) [grouping]) with
    | ok plan' q =>
      rw [hresult] at hlost
      exact hlost.elim
    | error e q =>
      rw [hresult] at hlost
      exact (hretry (.start 0) [grouping] lost [grouping] e q hresult hlost).1

end Planning

end ShardedQuery
