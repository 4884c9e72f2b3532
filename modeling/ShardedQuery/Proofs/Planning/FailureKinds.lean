import ShardedQuery.Proofs.Planning.Failures
import ShardedQuery.Proofs.Planning.Windows
import ShardedQuery.Proofs.Routing.Targets

/-!
# Kinds of failures

The kind of a failure tells what went wrong: the values of LIMIT and OFFSET and the keys of a
grouping are validated, routings are found or not, and everything else is internal.

* `FailsOnly` — what holds of every failure of a computation without state.
* `Environment.failsOnly_window`, `Select.failsOnly_checkGroupKeys` — validation.
* `Environment.CannotRoute` — the failures of finding a routing.  None of them is the fault of the
  query, and none is internal unless there is no node that could answer for the cluster.
-/

namespace ShardedQuery

variable {α β : Type}

/-- What holds of every failure of a computation. -/
def FailsOnly (failed : PlanningError → Prop) (x : Except PlanningError α) : Prop :=
  ∀ e, x = .error e → failed e

namespace FailsOnly

variable {failed : PlanningError → Prop}

theorem ok (a : α) : FailsOnly failed (.ok a) := fun _ h => nomatch h

theorem error {e : PlanningError} (h : failed e) : FailsOnly failed (.error e : Except _ α) := by
  intro e' he
  cases he
  exact h

theorem bind {x : Except PlanningError α} {f : α → Except PlanningError β}
    (hx : FailsOnly failed x) (hf : ∀ a, x = .ok a → FailsOnly failed (f a)) :
    FailsOnly failed (x >>= f) := by
  intro e h
  cases hxa : x with
  | error e' =>
    rw [hxa] at h
    cases h
    exact hx _ hxa
  | ok a =>
    rw [hxa] at h
    exact hf a hxa e h

theorem mono {failed' : PlanningError → Prop} {x : Except PlanningError α}
    (h : FailsOnly failed x) (hfailed : ∀ e, failed e → failed' e) : FailsOnly failed' x :=
  fun e he => hfailed e (h e he)

end FailsOnly

/-! ### Validation -/

namespace Environment

variable (env : Environment)

theorem failsOnly_count? (s : Symbol) :
    FailsOnly (fun e => e.kind = .validation) (env.count? s) := by
  cases hs : env.constant? s with
  | some v =>
    rw [env.count?_constant hs]
    cases v with
    | null => exact .ok _
    | int k =>
      by_cases hk : 0 ≤ k.toInt
      · rw [env.count?_int hk]
        exact .ok _
      · rw [env.count?_negative hk]
        exact .error rfl
    | bool | float | string => exact .error rfl
  | none =>
    cases s with
    | literal => cases hs
    | parameter i =>
      rw [env.count?_missing hs]
      exact .error rfl
    | reference | call | input => exact .error rfl

/-- Bad values of LIMIT and OFFSET are a matter of validation. -/
theorem failsOnly_window (n m : Option Symbol) :
    FailsOnly (fun e => e.kind = .validation) (env.window n m) := by
  have hcount : ∀ s : Option Symbol,
      FailsOnly (fun e => e.kind = .validation) (s.elim (.ok none) env.count?) := by
    intro s
    cases s with
    | none => exact .ok _
    | some s => exact env.failsOnly_count? s
  rw [window_eq]
  exact (hcount n).bind fun _ _ => (hcount m).bind fun _ _ => .ok _

end Environment

theorem Symbol.kind_groupKeyError {s : Symbol} {e : PlanningError} (h : s.groupKeyError? = some e) :
    e.kind = .validation := by
  cases s with
  | reference c =>
    simp only [groupKeyError?] at h
    split at h
    · cases h
      rfl
    · cases h
  | _ => cases h

/-- So are keys that cannot be grouped by. -/
theorem Select.failsOnly_checkGroupKeys (keys : List Symbol) :
    FailsOnly (fun e => e.kind = .validation) (Select.checkGroupKeys keys) := by
  unfold Select.checkGroupKeys
  split
  · rename_i e hkeys
    obtain ⟨k, -, hk⟩ := List.exists_of_findSome?_eq_some hkeys
    exact .error (Symbol.kind_groupKeyError hk)
  · exact .ok _

/-! ### Routings -/

/-- A draw below a positive number is below it. -/
theorem RandomStream.below_lt {n : Nat} (hn : 0 < n) (r : RandomStream) : (r.below n).1 < n := by
  have hscaled : ∀ v : UInt64, v.toNat * n / UInt64.size < n := by
    intro v
    refine Nat.div_lt_of_lt_mul ?_
    exact Nat.mul_lt_mul_of_pos_right v.toNat_lt hn
  have hwithin : ∀ (draws : Nat) (r : RandomStream), (belowWithin n draws r).1 < n := by
    intro draws
    induction draws with
    | zero => exact fun r => hscaled _
    | succ draws ih =>
      intro r
      simp only [belowWithin]
      split
      · exact hscaled _
      · exact ih _
  exact hwithin 511 r

/-- A failure to find the routing of a table. -/
inductive Environment.CannotRoute (env : Environment) (table : Table) (e : PlanningError) : Prop
  where
  | unavailable (h : e.kind = .routingUnavailable)
  | notFound (h : e.kind = .notFound)
  | unsupported (h : e.kind = .unsupported)
  /-- Nobody can answer for the cluster. -/
  | nobody (h : e.kind = .internal) (hcluster : table.granularity = .cluster)
      (hnobody : env.cluster.members.eligible = [])

namespace Environment

variable {env : Environment} {table : Table}

theorem CannotRoute.kind_ne_validation {e : PlanningError} (h : env.CannotRoute table e) :
    e.kind ≠ .validation := by
  cases h with
  | unavailable h | notFound h | unsupported h | nobody h =>
    rw [h]
    decide

theorem CannotRoute.kind_ne_internal {e : PlanningError} (h : env.CannotRoute table e)
    (heligible : table.granularity = .cluster → env.cluster.members.eligible ≠ []) :
    e.kind ≠ .internal := by
  cases h with
  | unavailable h | notFound h | unsupported h =>
    rw [h]
    decide
  | nobody _ hcluster hnobody => exact absurd hnobody (heligible hcluster)

theorem failsOnly_targets (cluster : Cluster) (indices : List String) (values : RoutingValues) :
    FailsOnly (fun e => e.kind = .notFound) (Routing.targets cluster indices values) := by
  rw [Routing.targets_eq]
  intro e h
  unfold orFault at h
  split at h
  · rename_i e' hfault
    cases h
    obtain ⟨name, -, hname⟩ := List.exists_of_findSome?_eq_some hfault
    unfold Cluster.fault? at hname
    split at hname
    · obtain ⟨shard, -, hshard⟩ := List.exists_of_findSome?_eq_some hname
      unfold ShardTable.missing? at hshard
      split at hshard
      · cases hshard
      · cases hshard
        rfl
    · cases hname
      rfl
  · cases h

theorem failsOnly_readShards (seed : Int32) (ignoreMissing : Bool) (groups : List ShardGroup)
    (routing : Routing) : FailsOnly (fun e => e.kind = .routingUnavailable)
      (groups.foldlM (Routing.readShard seed ignoreMissing) routing) := by
  induction groups generalizing routing with
  | nil => exact .ok _
  | cons group groups ih =>
    rw [List.foldlM_cons]
    refine FailsOnly.bind ?_ fun r _ => ih r
    unfold Routing.readShard
    split
    · exact .ok _
    · split
      · exact .ok _
      · exact .error rfl

/-- A node is drawn if there is one to draw. -/
theorem failsOnly_ofAnyNode (name : String) (members : Members) (random : RandomStream) :
    FailsOnly (fun e => e.kind = .internal ∧ members.eligible = [])
      (Routing.ofAnyNode name members random) := by
  unfold Routing.ofAnyNode
  split
  · exact .ok _
  · dsimp only
    split
    · exact .ok _
    · rename_i hnone
      refine .error ⟨rfl, ?_⟩
      by_contra hne
      have hlt := RandomStream.below_lt (List.length_pos_iff.mpr hne) random
      rw [List.getElem?_eq_none_iff] at hnone
      omega

theorem failsOnly_findRouting (filter : WhereClause) (random : RandomStream) :
    FailsOnly (env.CannotRoute table) (env.findRouting table filter random) := by
  unfold Environment.findRouting
  cases hscope : table.granularity with
  | cluster => exact (failsOnly_ofAnyNode _ _ _).mono fun e h => .nobody h.1 hscope h.2
  | node => exact .ok _
  | shard | doc =>
    refine FailsOnly.bind ?_ fun _ _ => .ok _
    unfold Routing.ofIndices
    split
    · refine ((failsOnly_targets _ _ _).mono fun e h => .notFound h).bind fun groups _ => ?_
      exact ((failsOnly_readShards _ _ _ _).mono fun e h => .unavailable h).bind fun _ _ => .ok _
    · exact .error (.unsupported rfl)

/-- **Only a routing that cannot be found makes the allocation of a routing fail.** -/
theorem endsIn_allocateRouting_kind (filter : WhereClause) (p : Progress) :
    Planning.EndsIn (env.allocateRouting table filter) p (fun _ _ => True)
      (fun e _ => env.CannotRoute table e) := by
  have hget : Planning.EndsIn (get : Planning Progress) p (fun _ _ => True) (fun _ _ => False) :=
    trivial
  unfold Environment.allocateRouting
  split
  · exact Planning.EndsIn.pure trivial
  · refine hget.bind (fun _ _ h => h.elim) fun progress q _ => ?_
    dsimp only
    split
    · exact Planning.EndsIn.pure trivial
    · have hfind : Planning.EndsIn
          (Planning.ofExcept (env.findRouting table filter progress.random)) q (fun _ _ => True)
          (fun e _ => env.CannotRoute table e) :=
        .ofExcept (fun _ _ => trivial) (failsOnly_findRouting filter progress.random)
      refine hfind.bind (fun _ _ h => h) ?_
      rintro ⟨routing, random⟩ _ _
      exact trivial

end Environment

end ShardedQuery
