import Mathlib.Data.List.Forall2
import ShardedQuery.Planning.Context

/-!
# What a planning computation did

A planning computation that succeeds has gone through each of its steps.  The lemmas of this module
take such a success apart.

* `except_bind_eq_ok`, `Planning.bind_eq_ok` — a success in two steps.
* `Planning.succeedsWith` — a success that can be evaluated.
* `forall₂_of_except_mapM`, `forall₂_of_option_mapM` — a success for every element of a list.
* `option_mapM_eq_none_iff` — no result for one of them.
* `exists_of_mem_right`, `exists_getElem?_of_forall₂` — an element of one of two related lists has a
  counterpart in the other.
* `nodes_of_executesOnHandler` — rows that are on the handler come from one node at most.
-/

namespace ShardedQuery

variable {ε α β : Type}

/-! ### Results without state -/

theorem except_bind_eq_ok {x : Except ε α} {f : α → Except ε β} {b : β} :
    (x >>= f) = .ok b ↔ ∃ a, x = .ok a ∧ f a = .ok b := by
  cases x with
  | error e => exact ⟨fun h => (nomatch h), fun ⟨_, ha, _⟩ => (nomatch ha)⟩
  | ok a =>
    refine ⟨fun h => ⟨a, rfl, h⟩, ?_⟩
    rintro ⟨a', ha, hb⟩
    cases ha
    exact hb

theorem except_bind_eq_error {x : Except ε α} {f : α → Except ε β} {e : ε} :
    (x >>= f) = .error e ↔ x = .error e ∨ ∃ a, x = .ok a ∧ f a = .error e := by
  cases x with
  | error e' =>
    constructor
    · intro h
      cases h
      exact .inl rfl
    · rintro (h | ⟨_, h, _⟩) <;> cases h
      rfl
  | ok a =>
    constructor
    · exact fun h => .inr ⟨a, rfl, h⟩
    · rintro (h | ⟨a', ha, h⟩)
      · cases h
      · cases ha
        exact h

theorem except_pure_eq_ok {a b : α} : (pure a : Except ε α) = .ok b ↔ a = b :=
  ⟨fun h => Except.ok.inj h, fun h => congrArg Except.ok h⟩

theorem forall₂_of_except_mapM {f : α → Except ε β} {xs : List α} {ys : List β}
    (h : xs.mapM f = .ok ys) : List.Forall₂ (fun x y => f x = .ok y) xs ys := by
  induction xs generalizing ys with
  | nil =>
    rw [List.mapM_nil, except_pure_eq_ok] at h
    subst h
    exact .nil
  | cons x xs ih =>
    simp only [List.mapM_cons, except_bind_eq_ok, except_pure_eq_ok] at h
    obtain ⟨y, hy, ys, hys, rfl⟩ := h
    exact .cons hy (ih hys)

theorem forall₂_of_option_mapM {f : α → Option β} {xs : List α} {ys : List β}
    (h : xs.mapM f = some ys) : List.Forall₂ (fun x y => f x = some y) xs ys := by
  induction xs generalizing ys with
  | nil =>
    cases h
    exact .nil
  | cons x xs ih =>
    simp only [List.mapM_cons, Option.bind_eq_bind, Option.bind_eq_some_iff] at h
    obtain ⟨y, hy, ys', hys, h⟩ := h
    cases h
    exact .cons hy (ih hys)

theorem option_mapM_eq_none_iff {f : α → Option β} {xs : List α} :
    xs.mapM f = none ↔ ∃ x ∈ xs, f x = none := by
  induction xs with
  | nil => simp
  | cons x xs ih =>
    cases hx : f x with
    | none => simp [List.mapM_cons, hx]
    | some y =>
      have hcons : (x :: xs).mapM f = (xs.mapM f).map (y :: ·) := by
        rw [List.mapM_cons, hx]
        cases xs.mapM f <;> rfl
      rw [hcons, Option.map_eq_none_iff, ih]
      simp [hx]

/-! ### Related lists -/

theorem exists_of_mem_right {R : α → β → Prop} {as : List α} {bs : List β}
    (h : List.Forall₂ R as bs) {b : β} (hb : b ∈ bs) : ∃ a ∈ as, R a b := by
  induction h with
  | nil => cases hb
  | cons hab _ ih =>
    rcases List.mem_cons.mp hb with rfl | hb
    · exact ⟨_, List.mem_cons_self, hab⟩
    · obtain ⟨a, ha, hab⟩ := ih hb
      exact ⟨a, List.mem_cons_of_mem _ ha, hab⟩

/-- What an element of a list has as its counterpart in a related list. -/
theorem exists_getElem?_of_forall₂ {R : α → β → Prop} {xs : List α} {ys : List β}
    (h : List.Forall₂ R xs ys) {i : Nat} {x : α} (hx : xs[i]? = some x) :
    ∃ y, ys[i]? = some y ∧ R x y := by
  induction h generalizing i with
  | nil => cases hx
  | cons hxy _ ih =>
    cases i with
    | zero =>
      cases hx
      exact ⟨_, rfl, hxy⟩
    | succ i => exact ih hx

/-! ### Results with what changes -/

namespace Planning

variable {p p' : Progress}

theorem bind_eq_ok {x : Planning α} {f : α → Planning β} {b : β} :
    (x >>= f) p = .ok b p' ↔ ∃ a q, x p = .ok a q ∧ f a q = .ok b p' := by
  show EStateM.bind x f p = _ ↔ _
  unfold EStateM.bind
  cases hx : x p with
  | error e q => exact ⟨fun h => (nomatch h), fun ⟨_, _, ha, _⟩ => (nomatch ha)⟩
  | ok a q =>
    refine ⟨fun h => ⟨a, q, rfl, h⟩, ?_⟩
    rintro ⟨a', q', ha, hb⟩
    cases ha
    exact hb

theorem bind_eq_error {x : Planning α} {f : α → Planning β} {e : PlanningError} :
    (x >>= f) p = .error e p' ↔
      x p = .error e p' ∨ ∃ a q, x p = .ok a q ∧ f a q = .error e p' := by
  show EStateM.bind x f p = _ ↔ _
  unfold EStateM.bind
  cases hx : x p with
  | error e' q =>
    constructor
    · exact fun h => .inl (by cases h; rfl)
    · rintro (h | ⟨_, _, h, _⟩) <;> cases h
      rfl
  | ok a q =>
    constructor
    · exact fun h => .inr ⟨a, q, rfl, h⟩
    · rintro (h | ⟨_, _, ha, h⟩)
      · cases h
      · cases ha
        exact h

theorem pure_eq_ok {a b : α} : (pure a : Planning α) p = .ok b p' ↔ a = b ∧ p = p' := by
  constructor
  · intro h
    cases h
    exact ⟨rfl, rfl⟩
  · rintro ⟨rfl, rfl⟩
    rfl

theorem ofExcept_eq_ok {x : Except PlanningError α} {a : α} :
    ofExcept x p = .ok a p' ↔ x = .ok a ∧ p = p' := by
  cases x with
  | error e => exact ⟨fun h => (nomatch h), fun ⟨h, _⟩ => (nomatch h)⟩
  | ok b =>
    rw [Except.ok.injEq]
    exact pure_eq_ok

theorem throw_ne_ok {e : PlanningError} {a : α} : (throw e : Planning α) p ≠ .ok a p' :=
  fun h => nomatch h

/-- Whether a computation succeeds with a result of some property. -/
def succeedsWith (x : Planning α) (p : Progress) (P : α → Prop) [DecidablePred P] : Bool :=
  match x p with
  | .ok a _ => decide (P a)
  | .error _ _ => false

theorem exists_of_succeedsWith {x : Planning α} {P : α → Prop} [DecidablePred P]
    (h : succeedsWith x p P = true) : ∃ a p', x p = .ok a p' ∧ P a := by
  unfold succeedsWith at h
  cases hx : x p with
  | ok a p' =>
    rw [hx] at h
    exact ⟨a, p', rfl, of_decide_eq_true h⟩
  | error e p' =>
    rw [hx] at h
    cases h

end Planning

/-! ### Nodes -/

theorem nodes_of_executesOnHandler {handler : String} {nodes : List String}
    (h : executesOnHandler handler nodes = true) : nodes = [] ∨ nodes = [handler] := by
  match nodes, h with
  | [], _ => exact .inl rfl
  | [node], h => exact .inr (by rw [eq_of_beq (show (node == handler) = true from h)])

/-- The handler is the one place where its own rows are. -/
theorem Environment.onHandler_handler (env : Environment) : env.onHandler [env.handler] = true :=
  beq_self_eq_true env.handler

end ShardedQuery
