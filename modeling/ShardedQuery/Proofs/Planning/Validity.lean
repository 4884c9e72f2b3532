import ShardedQuery.Proofs.Planning.Derivability
import ShardedQuery.Proofs.Planning.LocalGroups

/-!
# Which queries are rejected

A query is rejected if planning it fails for a reason of validation.  Each way of planning validates
on its own, and they do not validate alike: only the special ways look for versions of rows and for
keys that cannot be grouped by.

* `Planning.Rejects` — a computation that rejects.
* `Planning.rejects_general`, `rejects_count?`, `rejects_localGroups?` — what each way rejects.
* `Planning.rejects_plan` — **what the planner rejects**.
* `Planning.rejects_stable_iff` — the queries that are rejected or not whichever special ways are
  allowed.
-/

namespace ShardedQuery

namespace Planning

variable {α β : Type} {p : Progress}

/-! ### Rejections -/

/-- The computation fails for a reason of validation. -/
def Rejects (x : Planning α) (p : Progress) : Prop :=
  EndsIn x p (fun _ _ => False) (fun e _ => e.kind = .validation)

instance (x : Planning α) (p : Progress) : Decidable (Rejects x p) :=
  inferInstanceAs (Decidable (EndsIn ..))

theorem rejects_iff {x : Planning α} :
    Rejects x p ↔ ∃ e p', x p = .error e p' ∧ e.kind = .validation := by
  unfold Rejects EndsIn
  cases hx : x p with
  | ok a q => exact ⟨fun h => h.elim, fun ⟨_, _, h, _⟩ => nomatch h⟩
  | error e q =>
    refine ⟨fun h => ⟨e, q, rfl, h⟩, ?_⟩
    rintro ⟨_, _, he, h⟩
    cases he
    exact h

theorem not_rejects_of_endsIn {x : Planning α} {result : α → Progress → Prop}
    {failed : PlanningError → Progress → Prop} (h : EndsIn x p result failed)
    (hfailed : ∀ e q, failed e q → e.kind ≠ .validation) : ¬ Rejects x p := by
  rw [rejects_iff]
  rintro ⟨e, p', hx, he⟩
  unfold EndsIn at h
  rw [hx] at h
  exact hfailed e p' h he

theorem rejects_bind {x : Planning α} {f : α → Planning β} :
    Rejects (x >>= f) p ↔ Rejects x p ∨ ∃ a q, x p = .ok a q ∧ Rejects (f a) q := by
  simp only [rejects_iff, bind_eq_error]
  constructor
  · rintro ⟨e, p', hx | ⟨a, q, hx, hf⟩, he⟩
    · exact .inl ⟨e, p', hx, he⟩
    · exact .inr ⟨a, q, hx, e, p', hf, he⟩
  · rintro (⟨e, p', hx, he⟩ | ⟨a, q, hx, e, p', hf, he⟩)
    · exact ⟨e, p', .inl hx, he⟩
    · exact ⟨e, p', .inr ⟨a, q, hx, hf⟩, he⟩

theorem rejects_ofExcept {x : Except PlanningError α} :
    Rejects (ofExcept x) p ↔ ∃ e, x = .error e ∧ e.kind = .validation := by
  cases x with
  | ok a => exact ⟨fun h => h.elim, fun ⟨_, h, _⟩ => nomatch h⟩
  | error e =>
    refine ⟨fun h => ⟨e, rfl, h⟩, ?_⟩
    rintro ⟨_, h, he⟩
    cases h
    exact he

end Planning

/-! ### What is validated -/

/-- LIMIT and OFFSET have no values. -/
def Environment.InvalidWindow (env : Environment) (q : Select) : Prop :=
  ∃ e, env.window q.limit q.offset = .error e

/-- A key of the grouping cannot be grouped by. -/
def Select.InvalidKeys (q : Select) : Prop := ∃ e, Select.checkGroupKeys q.groupKeys = .error e

/-- A count is in the window, and WHERE asks for versions of rows. -/
def Environment.CountsVersions (env : Environment) (q : Select) : Prop :=
  ∃ w, env.window q.limit q.offset = .ok w ∧ w.keepsFirst = true ∧ q.filter.hasVersions = true

namespace Planning

variable {env : Environment} {table : Table} {q : Select} {p : Progress}

theorem rejects_window :
    Rejects (ofExcept (env.window q.limit q.offset)) p ↔ env.InvalidWindow q := by
  rw [rejects_ofExcept]
  exact ⟨fun ⟨e, he, _⟩ => ⟨e, he⟩, fun ⟨e, he⟩ => ⟨e, he, env.failsOnly_window _ _ e he⟩⟩

/-! ### The general way -/

/-- A tree with LIMIT or OFFSET evaluates them before anything else. -/
theorem rejects_limited {t : Logical} {request : Request} (h : env.InvalidWindow q) :
    Rejects ((Logical.limited q t).build env request) p := by
  unfold Logical.limited
  split
  · exact rejects_bind.mpr (.inl (rejects_window.mpr h))
  · rename_i hnone
    obtain ⟨e, he⟩ := h
    have hlimits : q.limit = none ∧ q.offset = none := by
      simpa using hnone
    rw [hlimits.1, hlimits.2, Environment.window_none] at he
    cases he

/-- **The general way rejects bad values of LIMIT and OFFSET, and nothing else.** -/
theorem rejects_general (relation : Relation) :
    Rejects (general env relation) p ↔ env.InvalidWindow relation.query := by
  constructor
  · intro h
    by_contra hwindow
    refine not_rejects_of_endsIn (endsIn_general relation p) (fun e _ he => ?_) h
    rcases he with he | ⟨he, -⟩ | ⟨-, he⟩ | ⟨_, _, -, he⟩
    · exact absurd ⟨e, he⟩ hwindow
    · exact ne_of_eq_of_ne he (by decide)
    · exact ne_of_eq_of_ne he (by decide)
    · exact he.kind_ne_validation
  · intro h
    show Rejects ((Logical.ofRelation relation).build env {}) p
    rw [Logical.ofRelation_eq]
    unfold Logical.laidOut
    split
    · exact rejects_limited h
    · exact rejects_bind.mpr (.inl (rejects_limited h))

/-! ### The special ways -/

theorem not_rejects_allocateRouting (filter : WhereClause) :
    ¬ Rejects (env.allocateRouting table filter) p :=
  not_rejects_of_endsIn (Environment.endsIn_allocateRouting_kind filter p)
    fun _ _ he => he.kind_ne_validation

/-- **A count is rejected for LIMIT and OFFSET, or because WHERE asks for versions of rows.** -/
theorem rejects_count? :
    Rejects (count? env table q) p ↔
      q.countsOn table = true ∧ (env.InvalidWindow q ∨ env.CountsVersions q) := by
  have hrest : ∀ p', ¬ Rejects (do
      let routing ← env.allocateRouting table q.filter
      let id ← newPhase
      return some (Plan.ofCount ⟨env.jobId, id, routing, q.filter, .sameNode⟩)) p' := by
    intro p' h
    rcases rejects_bind.mp h with h | ⟨_, _, -, h⟩
    · exact not_rejects_allocateRouting _ h
    · exact h
  rw [count?_eq]
  cases hcounts : q.countsOn table with
  | false => exact ⟨fun h => h.elim, fun h => nomatch h.1⟩
  | true =>
    rw [if_pos rfl, rejects_bind, rejects_window]
    refine ⟨fun h => ⟨rfl, h.imp_right ?_⟩, fun ⟨_, h⟩ => h.imp_right ?_⟩
    · rintro ⟨w, p', hw, h⟩
      refine ⟨w, (ofExcept_eq_ok.mp hw).1, ?_⟩
      cases hkeeps : w.keepsFirst with
      | false =>
        rw [hkeeps] at h
        exact h.elim
      | true =>
        refine ⟨rfl, ?_⟩
        by_contra hversions
        simp only [hkeeps, Bool.not_true, hversions, if_false] at h
        exact hrest p' h
    · rintro ⟨w, hw, hkeeps, hversions⟩
      refine ⟨w, p, ofExcept_eq_ok.mpr ⟨hw, rfl⟩, ?_⟩
      simp only [hkeeps, Bool.not_true, hversions]
      exact rejects_bind.mpr (.inl rfl)

theorem readsRows_of_groupsOn (h : q.groupsOn table = true) : q.readsRows = false := by
  unfold Select.groupsOn at h
  unfold Select.readsRows
  cases hkeys : q.groupBy with
  | none => simp [hkeys] at h
  | some keys => simp

theorem rejects_groupOnCollectors (hrows : q.readsRows = false) :
    Rejects (groupOnCollectors env table q) p ↔
      q.InvalidKeys ∨ q.HavingDerivable ∧ env.InvalidWindow q := by
  have hsteps : Rejects (ofExcept (groupingSteps env q)) p →
      Rejects (groupOnCollectors env table q) p :=
    fun h => rejects_bind.mpr (.inl h)
  constructor
  · intro h
    by_contra hvalid
    refine not_rejects_of_endsIn (endsIn_groupOnCollectors_fault hrows p) (fun e _ he => ?_) h
    rcases he with he | ⟨he, -⟩ | he
    · rcases (groupingSteps_eq_error hrows).mp he with he | ⟨-, ⟨h, -, he⟩ | ⟨hhaving, he⟩⟩
      · exact absurd (.inl ⟨e, he⟩) hvalid
      · exact ne_of_eq_of_ne (failsInternally_readFrom _ h e he) (by decide)
      · exact absurd (.inr ⟨hhaving, e, he⟩) hvalid
    · exact ne_of_eq_of_ne he (by decide)
    · exact he.kind_ne_validation
  · intro h
    cases hkeys : Select.checkGroupKeys q.groupKeys with
    | error e =>
      refine hsteps (rejects_ofExcept.mpr ⟨e, (groupingSteps_eq_error hrows).mpr (.inl hkeys), ?_⟩)
      exact Select.failsOnly_checkGroupKeys _ e hkeys
    | ok u =>
      rcases h with ⟨e, he⟩ | ⟨hhaving, e, he⟩
      · rw [hkeys] at he
        cases he
      · refine hsteps (rejects_ofExcept.mpr ⟨e, ?_, env.failsOnly_window _ _ e he⟩)
        exact (groupingSteps_eq_error hrows).mpr (.inr ⟨hkeys, .inr ⟨hhaving, he⟩⟩)

/-- **A grouping where the rows are read is rejected for versions of rows, for its keys, or, if HAVING
can be evaluated at all, for LIMIT and OFFSET.** -/
theorem rejects_localGroups? (hgroups : q.groupsOn table = true) :
    Rejects (localGroups? env table q) p ↔
      q.hasVersions = true ∨ q.InvalidKeys ∨ q.HavingDerivable ∧ env.InvalidWindow q := by
  rw [localGroups?_eq, if_pos hgroups]
  cases hversions : q.hasVersions with
  | true => exact ⟨fun _ => .inl rfl, fun _ => rfl⟩
  | false =>
    rw [if_neg Bool.false_ne_true, rejects_bind,
      rejects_groupOnCollectors (readsRows_of_groupsOn hgroups)]
    constructor
    · rintro (h | ⟨_, _, -, h⟩)
      · exact .inr h
      · exact h.elim
    · exact fun h => .inl (h.resolve_left Bool.false_ne_true)

/-! ### The planner -/

theorem rejects_orElse {x : Planning (Option Plan)} {y : Planning Plan} :
    Rejects (orElse x y) p ↔ Rejects x p ∨ ∃ p', x p = .ok none p' ∧ Rejects y p' := by
  unfold orElse
  rw [rejects_bind]
  refine or_congr_right ⟨?_, fun ⟨p', hx, h⟩ => ⟨none, p', hx, h⟩⟩
  rintro ⟨plan?, p', hx, h⟩
  cases plan? with
  | some plan => exact h.elim
  | none => exact ⟨p', hx, h⟩

theorem orElse_none (y : Planning Plan) : orElse (return none) y = y := by
  unfold orElse
  rw [pure_bind]

/-- What is rejected of the queries that are not counted. -/
theorem rejects_groupsOrGeneral :
    Rejects (orElse (tryIf env.settings.reduceOnCollector (localGroups? env table q))
      (general env (.table table q))) p ↔
      if env.settings.reduceOnCollector && q.groupsOn table then
        q.hasVersions = true ∨ q.InvalidKeys ∨ q.HavingDerivable ∧ env.InvalidWindow q
      else env.InvalidWindow q := by
  cases hallowed : env.settings.reduceOnCollector && q.groupsOn table with
  | false =>
    have hnone : tryIf env.settings.reduceOnCollector (localGroups? env table q) = return none := by
      unfold tryIf
      rw [localGroups?_eq]
      rcases Bool.and_eq_false_iff.mp hallowed with h | h
      · rw [h]
        rfl
      · rw [if_neg (ne_true_of_eq_false h), ite_self]
    rw [hnone, orElse_none, if_neg Bool.false_ne_true]
    exact rejects_general _
  | true =>
    obtain ⟨hreduce, hgroups⟩ := Bool.and_eq_true_iff.mp hallowed
    have htry : tryIf env.settings.reduceOnCollector (localGroups? env table q) =
        localGroups? env table q := if_pos hreduce
    rw [htry, rejects_orElse, rejects_localGroups? hgroups, if_pos rfl]
    refine or_iff_left ?_
    rintro ⟨p', hnone, -⟩
    rw [localGroups?_eq, if_pos hgroups] at hnone
    split at hnone
    · cases hnone
    · obtain ⟨_, _, -, h⟩ := bind_eq_ok.mp hnone
      cases h

/-- **What the planner rejects of the queries over a table.** -/
theorem rejects_plan :
    Rejects (plan env (.table table q)) p ↔
      if env.settings.countPushdown && q.countsOn table then
        env.InvalidWindow q ∨ env.CountsVersions q
      else if env.settings.reduceOnCollector && q.groupsOn table then
        q.hasVersions = true ∨ q.InvalidKeys ∨ q.HavingDerivable ∧ env.InvalidWindow q
      else env.InvalidWindow q := by
  rw [plan_eq]
  cases hallowed : env.settings.countPushdown && q.countsOn table with
  | false =>
    have hnone : tryIf env.settings.countPushdown (count? env table q) = return none := by
      unfold tryIf
      rw [count?_eq]
      rcases Bool.and_eq_false_iff.mp hallowed with h | h
      · rw [h]
        rfl
      · rw [if_neg (ne_true_of_eq_false h), ite_self]
    rw [hnone, orElse_none, if_neg Bool.false_ne_true]
    exact rejects_groupsOrGeneral
  | true =>
    obtain ⟨hpushdown, hcounts⟩ := Bool.and_eq_true_iff.mp hallowed
    have htry : tryIf env.settings.countPushdown (count? env table q) = count? env table q :=
      if_pos hpushdown
    have hgroups : q.groupsOn table = false := by
      unfold Select.countsOn at hcounts
      unfold Select.groupsOn
      cases hkeys : q.groupBy with
      | none => simp
      | some keys => simp [hkeys] at hcounts
    rw [htry, rejects_orElse, rejects_count?, if_pos rfl]
    constructor
    · rintro (⟨-, h⟩ | ⟨p', -, h⟩)
      · exact h
      · rw [rejects_groupsOrGeneral, hgroups, Bool.and_false, if_neg Bool.false_ne_true] at h
        exact .inl h
    · exact fun h => .inl ⟨hcounts, h⟩

end Planning

/-! ### The switches -/

/-- The environment with the special ways of planning allowed or not. -/
def Environment.withSwitches (env : Environment) (count reduce : Bool) : Environment :=
  { env with
    settings := { env.settings with countPushdown := count, reduceOnCollector := reduce } }

/-- All ways that fit a query over a table agree on whether it is rejected. -/
structure Environment.ValidatesAlike (env : Environment) (table : Table) (q : Select) : Prop where
  /-- A count that is in the window does not ask for versions of rows. -/
  counts : q.countsOn table = true → ¬ env.CountsVersions q
  /-- Neither does a grouping with values for LIMIT and OFFSET, and its keys are valid. -/
  groups : q.groupsOn table = true → ¬ env.InvalidWindow q →
    q.hasVersions = false ∧ ¬ q.InvalidKeys
  /-- A grouping without values for LIMIT and OFFSET has something to reject before HAVING, or it
  gets past HAVING. -/
  windows : q.groupsOn table = true → env.InvalidWindow q →
    q.hasVersions = true ∨ q.InvalidKeys ∨ q.HavingDerivable

namespace Planning

/-- What is rejected depends on the special ways that are allowed and on nothing else of the
settings. -/
theorem rejects_withSwitches {env : Environment} {table : Table} {q : Select} {p : Progress}
    (count reduce : Bool) :
    Rejects (plan (env.withSwitches count reduce) (.table table q)) p ↔
      if count && q.countsOn table then env.InvalidWindow q ∨ env.CountsVersions q
      else if reduce && q.groupsOn table then
        q.hasVersions = true ∨ q.InvalidKeys ∨ q.HavingDerivable ∧ env.InvalidWindow q
      else env.InvalidWindow q :=
  rejects_plan

/-- **A query is rejected or not whichever special ways of planning are allowed exactly if all ways
that fit it validate it alike.** -/
theorem rejects_stable_iff (env : Environment) (relation : Relation) (p : Progress) :
    (∀ count reduce count' reduce' : Bool,
      Rejects (plan (env.withSwitches count reduce) relation) p ↔
        Rejects (plan (env.withSwitches count' reduce') relation) p) ↔
    ∀ table q, relation = .table table q → env.ValidatesAlike table q := by
  cases relation with
  | derived name q =>
    have hgeneral : ∀ count reduce,
        Rejects (plan (env.withSwitches count reduce) (.derived name q)) p ↔ env.InvalidWindow q := by
      intro count reduce
      rw [plan_derived]
      exact rejects_general _
    exact ⟨fun _ _ _ h => (nomatch h), fun _ _ _ _ _ => (hgeneral _ _).trans (hgeneral _ _).symm⟩
  | table table q =>
    simp only [rejects_withSwitches]
    constructor
    · rintro hstable _ _ ⟨⟩
      refine ⟨fun hcounts hversions => ?_, fun hgroups hwindow => ?_, fun hgroups hwindow => ?_⟩
      · have h := hstable true false false false
        rw [hcounts] at h
        obtain ⟨w, hw, -⟩ := id hversions
        obtain ⟨e, he⟩ := h.mp (.inr hversions)
        rw [hw] at he
        cases he
      · have h := hstable false true false false
        rw [hgroups] at h
        refine ⟨?_, fun hkeys => hwindow (h.mp (.inr (.inl hkeys)))⟩
        by_contra hversions
        exact hwindow (h.mp (.inl (by simpa using hversions)))
      · have h := hstable false true false false
        rw [hgroups] at h
        exact (h.mpr hwindow).imp_right fun h => h.imp_right And.left
    · intro halike
      have halike := halike table q rfl
      have hgeneral : ∀ count reduce : Bool, (if (count && q.countsOn table) = true then
            env.InvalidWindow q ∨ env.CountsVersions q
          else if (reduce && q.groupsOn table) = true then
            q.hasVersions = true ∨ q.InvalidKeys ∨ q.HavingDerivable ∧ env.InvalidWindow q
          else env.InvalidWindow q) ↔ env.InvalidWindow q := by
        intro count reduce
        split
        · rename_i hcounts
          exact or_iff_left (halike.counts (Bool.and_eq_true_iff.mp hcounts).2)
        · split
          · rename_i hgroups
            have hgroups := (Bool.and_eq_true_iff.mp hgroups).2
            by_cases hwindow : env.InvalidWindow q
            · have h := halike.windows hgroups hwindow
              exact ⟨fun _ => hwindow, fun _ => h.imp_right fun h => h.imp_right fun h => ⟨h, hwindow⟩⟩
            · obtain ⟨hversions, hkeys⟩ := halike.groups hgroups hwindow
              simp [hversions, hkeys, hwindow]
          · exact Iff.rfl
      exact fun _ _ _ _ => (hgeneral _ _).trans (hgeneral _ _).symm

/-- The row has its first version. -/
def isFirstVersion : Symbol := .call "op_=" [.reference ⟨"doc.t", versionColumn, .long⟩, .ofInt 1]

/-- The values of a column, of those rows only that have their first version. -/
def firstVersions : Select where
  outputs := [city]
  groupBy := some [city]
  filter := { query := some isFirstVersion }

/-- The number of the rows that have their first version. -/
def countFirstVersions : Select where
  outputs := [.call "count" []]
  filter := { query := some isFirstVersion }

/-- A grouping and a count that ask for versions of rows are rejected where the special ways are
allowed, and planned where they are not. -/
theorem rejects_firstVersions :
    let env := twoShards cityIndex
    let table := (Table.ofDocuments "doc" "t").withClusteredBy "city"
    let plans := fun (env : Environment) q => plan env (.table table q)
    (Rejects (plans (env.withSwitches true true) firstVersions) (.start 0) ∧
      ∃ plan p', plans (env.withSwitches true false) firstVersions (.start 0) = .ok plan p') ∧
    Rejects (plans (env.withSwitches true true) countFirstVersions) (.start 0) ∧
      ∃ plan p', plans (env.withSwitches false true) countFirstVersions (.start 0) = .ok plan p' := by
  intro env table plans
  refine ⟨⟨by decide +kernel, ?_⟩, by decide +kernel, ?_⟩
  · obtain ⟨plan, p', hplan, -⟩ : ∃ plan p',
        plans (env.withSwitches true false) firstVersions (.start 0) = .ok plan p' ∧ True :=
      exists_of_succeedsWith (by decide +kernel)
    exact ⟨plan, p', hplan⟩
  · obtain ⟨plan, p', hplan, -⟩ : ∃ plan p',
        plans (env.withSwitches false true) countFirstVersions (.start 0) = .ok plan p' ∧ True :=
      exists_of_succeedsWith (by decide +kernel)
    exact ⟨plan, p', hplan⟩

end Planning

end ShardedQuery
