import Mathlib.Data.List.Forall2
import ShardedQuery.Plan.InputColumns

/-!
# Symbols as trees

The functions on symbols recurse through the arguments of calls with a twin for lists.  Here each
twin is named as the list operation it is, so that a statement about symbols needs one induction,
over the calls.

* `Symbol.induct` — the induction: a call may use the statement for every argument.
* `Symbol.call_beq_iff` and the instances around it — equality of symbols is an equivalence.
* `Symbol.position?_congr` — equal symbols are found in the same place.
* `position?_eq_some`, `position?_eq_none_iff`, `position?_isSome` — what the search for a column
  finds.
-/

namespace ShardedQuery

/-! ### Columns by position -/

section Position

variable {α : Type} [BEq α]

theorem position?_eq_some {xs : List α} {x : α} {i : Nat} (h : position? xs x = some i) :
    ∃ y, xs[i]? = some y ∧ (y == x) = true := by
  obtain ⟨hi, hx, -⟩ := List.findIdx?_eq_some_iff_getElem.mp h
  exact ⟨xs[i], List.getElem?_eq_getElem hi, hx⟩

/-- What is not found is different from all. -/
theorem position?_eq_none_iff {xs : List α} {x : α} :
    position? xs x = none ↔ ∀ y ∈ xs, (y == x) = false :=
  List.findIdx?_eq_none_iff

theorem position?_isSome {xs : List α} {x y : α} (hy : y ∈ xs) (hyx : (y == x) = true) :
    ∃ i, position? xs x = some i := by
  cases h : position? xs x with
  | some i => exact ⟨i, rfl⟩
  | none =>
    have hne := position?_eq_none_iff.mp h y hy
    rw [hyx] at hne
    cases hne

end Position

namespace Symbol

/-- Induction over the calls: a property of the arguments passes to the call. -/
@[elab_as_elim, induction_eliminator]
theorem induct {motive : Symbol → Prop} (literal : ∀ v, motive (literal v))
    (reference : ∀ c, motive (reference c))
    (call : ∀ f args, (∀ a ∈ args, motive a) → motive (call f args))
    (input : ∀ i, motive (input i)) (parameter : ∀ i, motive (parameter i)) (s : Symbol) :
    motive s := by
  refine @Symbol.rec motive (fun args => ∀ a ∈ args, motive a) literal reference
    (fun f args ih => call f args ih) input parameter ?_ ?_ s
  · intro a ha
    cases ha
  · intro a as iha ihas b hb
    rcases List.mem_cons.mp hb with rfl | hb
    · exact iha
    · exact ihas b hb

/-! ### The twins for lists -/

theorem beqAll_eq (as bs : List Symbol) : beqAll as bs = (as == bs) := by
  induction as generalizing bs with
  | nil => cases bs <;> rfl
  | cons a as ih =>
    cases bs with
    | nil => rfl
    | cons b bs =>
      show (beq a b && beqAll as bs) = (beq a b && as == bs)
      rw [ih]

theorem anyIn_eq (p : Symbol → Bool) (as : List Symbol) : anyIn p as = as.any (any p) := by
  induction as with
  | nil => rfl
  | cons a as ih => rw [anyIn, List.any_cons, ih]

theorem readAllFrom_eq (inputs as : List Symbol) :
    readAllFrom inputs as = as.mapM (readFrom inputs) := by
  induction as with
  | nil => rfl
  | cons a as ih => rw [List.mapM_cons, readAllFrom, ih]

/-! ### Equality -/

theorem call_beq (f g : String) (as bs : List Symbol) :
    (call f as == call g bs) = (f == g && as == bs) := by
  show (f == g && beqAll as bs) = (f == g && as == bs)
  rw [beqAll_eq]

end Symbol

/-- Equality of constants is an equivalence, also for floats, which are compared by their values. -/
instance : EquivBEq Literal where
  rfl {a} := by cases a <;> simp [BEq.beq, Literal.beq]
  symm {a b} h := by cases a <;> cases b <;> simp_all [BEq.beq, Literal.beq]
  trans {a b c} h k := by cases a <;> cases b <;> cases c <;> simp_all [BEq.beq, Literal.beq]

namespace Symbol

/-- Lists of symbols are equal when they are so place by place. -/
theorem list_beq_iff (as bs : List Symbol) :
    (as == bs) = true ↔ List.Forall₂ (fun a b => (a == b) = true) as bs := by
  induction as generalizing bs with
  | nil =>
    cases bs with
    | nil => simp
    | cons b bs => simp [List.forall₂_nil_left_iff]
  | cons a as ih =>
    cases bs with
    | nil => simp [List.forall₂_nil_right_iff]
    | cons b bs => simp [List.forall₂_cons, ih]

/-- What equals a call is a call of the same function with equal arguments. -/
theorem call_beq_iff (f : String) (as : List Symbol) (t : Symbol) :
    (call f as == t) = true ↔
      ∃ bs, t = call f bs ∧ List.Forall₂ (fun a b => (a == b) = true) as bs := by
  constructor
  · intro h
    cases t with
    | call g bs =>
      rw [call_beq, Bool.and_eq_true, beq_iff_eq, list_beq_iff] at h
      exact ⟨bs, by rw [h.1], h.2⟩
    | literal v => cases h
    | reference c => cases h
    | input i => cases h
    | parameter i => cases h
  · rintro ⟨bs, rfl, h⟩
    rw [call_beq, list_beq_iff .. |>.mpr h]
    simp

theorem beq_refl (s : Symbol) : (s == s) = true := by
  induction s with
  | literal v => exact BEq.refl v
  | reference c => exact BEq.refl c
  | input i => exact BEq.refl i
  | parameter i => exact BEq.refl i
  | call f args ih =>
    rw [call_beq_iff]
    exact ⟨args, rfl, List.forall₂_same.mpr ih⟩

theorem beq_symm {s t : Symbol} (h : (s == t) = true) : (t == s) = true := by
  induction s generalizing t with
  | literal v =>
    cases t with
    | literal w => exact BEq.symm (α := Literal) h
    | _ => cases h
  | reference c =>
    cases t with
    | reference w => exact BEq.symm (α := Column) h
    | _ => cases h
  | input i =>
    cases t with
    | input w => exact BEq.symm (α := Nat) h
    | _ => cases h
  | parameter i =>
    cases t with
    | parameter w => exact BEq.symm (α := Nat) h
    | _ => cases h
  | call f args ih =>
    obtain ⟨bs, rfl, hbs⟩ := (call_beq_iff f args t).mp h
    rw [call_beq_iff]
    refine ⟨args, rfl, ?_⟩
    clear h
    induction hbs with
    | nil => exact .nil
    | cons hab _ ihbs => exact .cons (ih _ (by simp) hab) (ihbs fun a ha => ih a (by simp [ha]))

theorem beq_trans {s t u : Symbol} (h : (s == t) = true) (k : (t == u) = true) :
    (s == u) = true := by
  induction s generalizing t u with
  | literal v =>
    cases t with
    | literal w =>
      cases u with
      | literal z => exact BEq.trans (α := Literal) h k
      | _ => cases k
    | _ => cases h
  | reference c =>
    cases t with
    | reference d => rwa [eq_of_beq (show (c == d) = true from h)]
    | _ => cases h
  | input i =>
    cases t with
    | input j => rwa [eq_of_beq (show (i == j) = true from h)]
    | _ => cases h
  | parameter i =>
    cases t with
    | parameter j => rwa [eq_of_beq (show (i == j) = true from h)]
    | _ => cases h
  | call f args ih =>
    obtain ⟨bs, rfl, hbs⟩ := (call_beq_iff f args t).mp h
    obtain ⟨cs, rfl, hcs⟩ := (call_beq_iff f bs u).mp k
    rw [call_beq_iff]
    refine ⟨cs, rfl, ?_⟩
    clear h k
    induction hbs generalizing cs with
    | nil => exact hcs
    | cons hab _ ihbs =>
      cases hcs with
      | cons hbc hcs =>
        exact .cons (ih _ (by simp) hab hbc) (ihbs (fun a ha => ih a (by simp [ha])) _ hcs)

/-- **Equality of symbols is an equivalence.** -/
instance : EquivBEq Symbol where
  rfl := beq_refl _
  symm := beq_symm
  trans := beq_trans

/-- Equal symbols are found in the same place. -/
theorem position?_congr {s t : Symbol} (h : (s == t) = true) (columns : List Symbol) :
    position? columns s = position? columns t := by
  have hfound : (fun y : Symbol => y == s) = fun y => y == t := by
    funext y
    exact Bool.eq_iff_iff.mpr ⟨fun hs => beq_trans hs h, fun ht => beq_trans ht (beq_symm h)⟩
  unfold position?
  rw [hfound]

end Symbol

end ShardedQuery
