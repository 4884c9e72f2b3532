import Mathlib.Algebra.Group.Nat.Defs
import ShardedQuery.Proofs.Planning.Outcomes
import ShardedQuery.Proofs.Rows.Trimming

/-!
# The values of LIMIT and OFFSET

LIMIT and OFFSET are literals or parameters.  An integer that is not negative is a count of rows,
null is as good as no clause, and everything else is at fault.

* `Environment.constant?` — the constant that a symbol stands for; `Literal.Counts` — what it says.
* `Environment.count?_eq_ok` — the value of one clause.
* `Environment.window_eq_ok` — **the window that both clauses leave**.
* `Environment.window_isSmall` — their values are so small that the sum is a count.
-/

namespace ShardedQuery

/-- What a constant says in LIMIT or OFFSET: null says nothing, and an integer that is not negative
is the count. -/
inductive Literal.Counts : Literal → Option Nat → Prop
  | null : Counts .null none
  | int {k : Int64} (h : 0 ≤ k.toInt) : Counts (.int k) (some k.toInt.toNat)

theorem Literal.Counts.lt {v : Literal} {n : Nat} (h : v.Counts (some n)) : n < 2 ^ 63 := by
  cases h with
  | @int k hk =>
    have := k.toInt_lt
    omega

namespace Environment

variable (env : Environment)

/-- The constant that a symbol stands for: a literal for itself, a parameter for its value. -/
def constant? : Symbol → Option Literal
  | .literal v => some v
  | .parameter i => env.params[i]?
  | .reference _ | .call _ _ | .input _ => none

/-! ### One clause -/

theorem count?_null : env.count? (.literal .null) = .ok none := rfl

theorem count?_int {k : Int64} (h : 0 ≤ k.toInt) :
    env.count? (.literal (.int k)) = .ok (some k.toInt.toNat) := if_pos h

theorem count?_negative {k : Int64} (h : ¬ 0 ≤ k.toInt) : env.count? (.literal (.int k)) =
    .error (.invalidLimit ((Literal.int k).display ++ " is negative")) := if_neg h

theorem count?_literal {v : Literal} {n : Option Nat} :
    env.count? (.literal v) = .ok n ↔ v.Counts n := by
  constructor
  · intro h
    cases v with
    | null =>
      cases h
      exact .null
    | int k =>
      by_cases hk : 0 ≤ k.toInt
      · rw [env.count?_int hk] at h
        cases h
        exact .int hk
      · rw [env.count?_negative hk] at h
        cases h
    | bool | float | string => cases h
  · intro h
    cases h with
    | null => exact env.count?_null
    | int hk => exact env.count?_int hk

/-- A parameter counts what its value counts. -/
theorem count?_constant {s : Symbol} {v : Literal} (h : env.constant? s = some v) :
    env.count? s = env.count? (.literal v) := by
  cases s with
  | literal u =>
    cases h
    rfl
  | parameter i =>
    have hvalue : env.params[i]? = some v := h
    simp only [count?, hvalue]
  | reference | call | input => cases h

theorem count?_missing {i : Nat} (h : env.params[i]? = none) :
    env.count? (.parameter i) = .error (.missingParameter (i + 1)) := by
  simp only [count?, h]
  rfl

/-- **The value of LIMIT or OFFSET** is what the constant there says. -/
theorem count?_eq_ok {s : Symbol} {n : Option Nat} :
    env.count? s = .ok n ↔ ∃ v, env.constant? s = some v ∧ v.Counts n := by
  cases hs : env.constant? s with
  | some v => simp [env.count?_constant hs, env.count?_literal]
  | none =>
    suffices env.count? s ≠ .ok n by simp [this]
    intro h
    cases s with
    | literal => cases hs
    | parameter i =>
      rw [env.count?_missing hs] at h
      cases h
    | reference | call | input => cases h

/-! ### Both clauses -/

/-- The values of LIMIT and OFFSET are found one after the other. -/
theorem window_eq (n m : Option Symbol) :
    env.window n m = (n.elim (.ok none) env.count?).bind fun limit =>
      (m.elim (.ok none) env.count?).bind fun offset => .ok ⟨limit, offset.getD 0⟩ := by
  cases n <;> cases m <;> rfl

/-- Without LIMIT and OFFSET the window leaves all rows. -/
theorem window_none : env.window none none = .ok .unbounded := rfl

/-- What a clause says that may be absent. -/
inductive Says : Option Symbol → Option Nat → Prop
  | absent : Says none none
  | constant {s : Symbol} {v : Literal} {n : Option Nat} (hs : env.constant? s = some v)
      (hv : v.Counts n) : Says (some s) n

variable {env}

theorem Says.lt {s : Option Symbol} {n : Nat} (h : env.Says s (some n)) : n < 2 ^ 63 := by
  cases h with
  | constant _ hv => exact hv.lt

theorem elim_count?_eq_ok {s : Option Symbol} {n : Option Nat} :
    s.elim (.ok none) env.count? = .ok n ↔ env.Says s n := by
  constructor
  · intro h
    cases s with
    | none =>
      cases h
      exact .absent
    | some s =>
      obtain ⟨v, hs, hv⟩ := env.count?_eq_ok.mp h
      exact .constant hs hv
  · intro h
    cases h with
    | absent => rfl
    | constant hs hv => exact env.count?_eq_ok.mpr ⟨_, hs, hv⟩

/-- **The window of a query** skips as many rows as OFFSET says, none if it says nothing, and keeps
as many of the rest as LIMIT says, all of them if it says nothing. -/
theorem window_eq_ok {n m : Option Symbol} {w : Window} :
    env.window n m = .ok w ↔
      ∃ limit offset, env.Says n limit ∧ env.Says m offset ∧ w = ⟨limit, offset.getD 0⟩ := by
  rw [window_eq]
  constructor
  · intro h
    obtain ⟨limit, hlimit, h⟩ := except_bind_eq_ok.mp h
    obtain ⟨offset, hoffset, h⟩ := except_bind_eq_ok.mp h
    cases h
    exact ⟨limit, offset, elim_count?_eq_ok.mp hlimit, elim_count?_eq_ok.mp hoffset, rfl⟩
  · rintro ⟨limit, offset, hlimit, hoffset, rfl⟩
    exact except_bind_eq_ok.mpr ⟨limit, elim_count?_eq_ok.mpr hlimit,
      except_bind_eq_ok.mpr ⟨offset, elim_count?_eq_ok.mpr hoffset, rfl⟩⟩

/-- A parameter for LIMIT, and null for OFFSET. -/
example : { env with params := [.int 3] }.window (some (.parameter 0)) (some (.literal .null)) =
    .ok ⟨some 3, 0⟩ := rfl

/-- **The sum of LIMIT and OFFSET is a count**, since each is a signed 64 bit integer. -/
theorem window_isSmall {n m : Option Symbol} {w : Window} (h : env.window n m = .ok w) :
    w.IsSmall := by
  obtain ⟨limit, offset, hlimit, hoffset, rfl⟩ := window_eq_ok.mp h
  rintro k rfl
  have hk := hlimit.lt
  cases offset with
  | none =>
    simp only [Option.getD_none, maxCount]
    omega
  | some l =>
    have hl := hoffset.lt
    simp only [Option.getD_some, maxCount]
    omega

end Environment

end ShardedQuery
