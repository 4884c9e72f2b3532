import ShardedQuery.Proofs.Symbol.Nested
import ShardedQuery.Query.Select

/-!
# The aggregates of a query

A query is split by walking its symbols for their outermost aggregate calls.

* `distinct_eq_eraseDups`, `pairwise_distinct` — a list without repetitions.
* `Symbol.IsLowercase`, `IsRowLevel`, `IsUnnested` — calls are named in lower case, no aggregate is
  called, no aggregate is called inside an aggregate.
* `Symbol.outermost` — the outermost aggregate calls of a symbol, from left to right.
* `Split.exists_mem_aggregates` — the split has all of them, up to equality of symbols.
* `Split.mem_aggregates` — and nothing else.
-/

namespace ShardedQuery

/-! ### Lists without repetitions -/

section Distinct

variable {α : Type} [BEq α]

theorem mem_of_mem_foldl_insertNew {found xs : List α} {x : α}
    (h : x ∈ xs.foldl insertNew found) : x ∈ found ∨ x ∈ xs := by
  induction xs generalizing found with
  | nil => exact Or.inl h
  | cons a xs ih =>
    rcases ih h with hf | hx
    · unfold insertNew at hf
      split at hf
      · exact Or.inl hf
      · rcases List.mem_append.mp hf with hf | hf
        · exact Or.inl hf
        · exact Or.inr (by simp [List.mem_singleton.mp hf])
    · exact Or.inr (List.mem_cons_of_mem a hx)

theorem mem_foldl_insertNew_of_mem {found xs : List α} {x : α} (h : x ∈ found) :
    x ∈ xs.foldl insertNew found := by
  induction xs generalizing found with
  | nil => exact h
  | cons a xs ih =>
    refine ih ?_
    unfold insertNew
    split
    · exact h
    · exact List.mem_append_left [a] h

/-- An element that is added is found afterwards, itself or one that it equals. -/
theorem exists_mem_foldl_insertNew (hrefl : ∀ a : α, (a == a) = true) {found xs : List α} {x : α}
    (h : x ∈ xs) : ∃ y ∈ xs.foldl insertNew found, (x == y) = true := by
  induction xs generalizing found with
  | nil => cases h
  | cons a xs ih =>
    rcases List.mem_cons.mp h with rfl | h
    · have hx : ∃ y ∈ insertNew found x, (x == y) = true := by
        unfold insertNew
        split
        · rename_i hc
          exact List.contains_iff_exists_mem_beq.mp hc
        · exact ⟨x, by simp, hrefl x⟩
      obtain ⟨y, hy, hxy⟩ := hx
      have hy' : y ∈ xs.foldl insertNew (insertNew found x) := mem_foldl_insertNew_of_mem hy
      exact ⟨y, hy', hxy⟩
    · exact ih h

theorem mem_of_mem_distinct {xs : List α} {x : α} (h : x ∈ distinct xs) : x ∈ xs :=
  (mem_of_mem_foldl_insertNew h).resolve_left List.not_mem_nil

/-- The list without repetitions, in order of first appearance. -/
theorem distinct_eq_eraseDups (xs : List α) : distinct xs = xs.eraseDups := by
  have hloop : ∀ found : List α,
      xs.foldl insertNew found = List.eraseDupsBy.loop (· == ·) xs found.reverse := by
    induction xs with
    | nil => simp [List.eraseDupsBy.loop]
    | cons x xs ih =>
      intro found
      rw [List.foldl_cons, ih, List.eraseDupsBy.loop, List.any_reverse, List.any_beq, insertNew]
      cases found.contains x <;> simp
  exact hloop []

/-- No two elements are equal. -/
theorem pairwise_distinct [PartialEquivBEq α] (xs : List α) :
    (distinct xs).Pairwise fun a b => (a == b) = false := by
  have hfound : ∀ found : List α, found.Pairwise (fun a b => (a == b) = false) →
      (xs.foldl insertNew found).Pairwise fun a b => (a == b) = false := by
    induction xs with
    | nil => exact fun _ h => h
    | cons x xs ih =>
      intro found h
      refine ih _ ?_
      unfold insertNew
      split
      · exact h
      · rename_i hnew
        refine List.pairwise_append.mpr ⟨h, List.pairwise_singleton _ x, fun y hy z hz => ?_⟩
        rw [List.mem_singleton.mp hz, Bool.eq_false_iff]
        exact fun hyx => hnew (List.contains_iff_exists_mem_beq.mpr ⟨y, hy, BEq.symm hyx⟩)
  exact hfound [] .nil

end Distinct

/-- What is in a list is among its symbols without repetitions, up to equality. -/
theorem exists_mem_distinct {xs : List Symbol} {x : Symbol} (h : x ∈ xs) :
    ∃ y ∈ distinct xs, (y == x) = true := by
  have hf : ∃ y ∈ xs.foldl insertNew [], (x == y) = true :=
    exists_mem_foldl_insertNew Symbol.beq_refl h
  obtain ⟨y, hy, hxy⟩ := hf
  exact ⟨y, hy, Symbol.beq_symm hxy⟩

/-- Equal symbols of a list without repetitions stand in the same place. -/
theorem place_unique {xs : List Symbol} (h : xs.Pairwise fun a b => (a == b) = false) {i j : Nat}
    {a b : Symbol} (hi : xs[i]? = some a) (hj : xs[j]? = some b) (hab : (a == b) = true) :
    i = j := by
  obtain ⟨hil, rfl⟩ := List.getElem?_eq_some_iff.mp hi
  obtain ⟨hjl, rfl⟩ := List.getElem?_eq_some_iff.mp hj
  rw [List.pairwise_iff_getElem] at h
  rcases Nat.lt_trichotomy i j with hlt | heq | hlt
  · rw [h i j hil hjl hlt] at hab
    cases hab
  · exact heq
  · have hne := h j i hjl hil hlt
    rw [Symbol.beq_symm hab] at hne
    cases hne

/-- Behind symbols that differ from it, a symbol of a list without repetitions is found in its
place. -/
theorem position?_append_of_distinct {keys xs : List Symbol}
    (h : xs.Pairwise fun a b => (a == b) = false) {i : Nat} {a : Symbol}
    (hkeys : ∀ k ∈ keys, (k == a) = false) (hi : xs[i]? = some a) :
    position? (keys ++ xs) a = some (keys.length + i) := by
  obtain ⟨j, hj⟩ :=
    position?_isSome (List.mem_append_right keys (List.mem_of_getElem? hi)) (Symbol.beq_refl a)
  obtain ⟨b, hb, hba⟩ := position?_eq_some hj
  have hle : keys.length ≤ j := by
    by_contra hlt
    rw [List.getElem?_append_left (by omega)] at hb
    have hne := hkeys b (List.mem_of_getElem? hb)
    rw [hba] at hne
    cases hne
  rw [List.getElem?_append_right hle] at hb
  have hplace := place_unique h hb hi hba
  rw [hj, ← hplace, Nat.add_sub_cancel' hle]

namespace Symbol

/-! ### Shapes of symbols -/

/-- Every call in the symbol is named in lower case. -/
def IsLowercase (s : Symbol) : Prop :=
  (s.any fun
    | call f _ => f.toLower != f
    | _ => false) = false

/-- No aggregate is called in the symbol, so that it has a value in each row. -/
def IsRowLevel (s : Symbol) : Prop := s.any isAggregate = false

/-- No aggregate is called inside an aggregate. -/
def IsUnnested (s : Symbol) : Prop :=
  (s.any fun
    | call f args => isAggregateName f && anyIn isAggregate args
    | _ => false) = false

instance : DecidablePred IsLowercase := fun s => by unfold IsLowercase; infer_instance
instance : DecidablePred IsRowLevel := fun s => by unfold IsRowLevel; infer_instance
instance : DecidablePred IsUnnested := fun s => by unfold IsUnnested; infer_instance

theorem any_call_eq_false (p : Symbol → Bool) (f : String) (args : List Symbol) :
    (call f args).any p = false ↔ p (call f args) = false ∧ ∀ a ∈ args, a.any p = false := by
  rw [any, anyIn_eq, Bool.or_eq_false_iff, List.any_eq_false]
  simp

theorem isLowercase_call (f : String) (args : List Symbol) :
    (call f args).IsLowercase ↔ f.toLower = f ∧ ∀ a ∈ args, a.IsLowercase := by
  simp only [IsLowercase, any_call_eq_false, bne_eq_false_iff_eq]

theorem isRowLevel_call (f : String) (args : List Symbol) :
    (call f args).IsRowLevel ↔ isAggregateName f = false ∧ ∀ a ∈ args, a.IsRowLevel := by
  simp only [IsRowLevel, any_call_eq_false, isAggregate]

theorem isUnnested_call (f : String) (args : List Symbol) :
    (call f args).IsUnnested ↔
      (isAggregateName f = true → ∀ a ∈ args, a.IsRowLevel) ∧ ∀ a ∈ args, a.IsUnnested := by
  simp only [IsUnnested, any_call_eq_false, anyIn_eq, Bool.and_eq_false_imp, List.any_eq_false,
    IsRowLevel, Bool.not_eq_true]

/-! ### Outermost aggregate calls -/

mutual

/-- The outermost aggregate calls of a symbol, from left to right. -/
def outermost : Symbol → List Symbol
  | call f args => if isAggregateName f then [call f args] else outermostIn args
  | literal _ | reference _ | input _ | parameter _ => []

/-- The outermost aggregate calls of several symbols. -/
def outermostIn : List Symbol → List Symbol
  | [] => []
  | a :: as => outermost a ++ outermostIn as

end

theorem outermostIn_eq (as : List Symbol) : outermostIn as = as.flatMap outermost := by
  induction as with
  | nil => rfl
  | cons a as ih => rw [outermostIn, List.flatMap_cons, ih]

theorem outermost_call_of_aggregate {f : String} (hf : isAggregateName f = true)
    (args : List Symbol) : (call f args).outermost = [call f args] := by
  rw [outermost, if_pos hf]

theorem outermost_call_of_not_aggregate {f : String} (hf : isAggregateName f = false)
    (args : List Symbol) : (call f args).outermost = args.flatMap outermost := by
  rw [outermost, if_neg (by simp [hf]), outermostIn_eq]

theorem outermost_eq_nil {s : Symbol} (h : s.IsRowLevel) : s.outermost = [] := by
  induction s with
  | call f args ih =>
    rw [isRowLevel_call] at h
    rw [outermost_call_of_not_aggregate h.1, List.flatMap_eq_nil_iff]
    exact fun a ha => ih a ha (h.2 a ha)
  | _ => rfl

/-- An outermost aggregate call is a call of an aggregate, and it is as well formed as the symbol it
comes from. -/
theorem outermost_spec {s a : Symbol} (ha : a ∈ s.outermost) :
    a.isAggregate = true ∧ (s.IsLowercase → a.IsLowercase) ∧ (s.IsUnnested → a.IsUnnested) := by
  induction s with
  | call f args ih =>
    by_cases hf : isAggregateName f = true
    · rw [outermost_call_of_aggregate hf, List.mem_singleton] at ha
      subst ha
      exact ⟨hf, id, id⟩
    · rw [outermost_call_of_not_aggregate (by simpa using hf), List.mem_flatMap] at ha
      obtain ⟨b, hb, hab⟩ := ha
      obtain ⟨h₁, h₂, h₃⟩ := ih b hb hab
      rw [isLowercase_call, isUnnested_call]
      exact ⟨h₁, fun h => h₂ (h.2 b hb), fun h => h₃ (h.2 b hb)⟩
  | literal v => cases ha
  | reference c => cases ha
  | input i => cases ha
  | parameter i => cases ha

/-- The walk over a symbol adds its outermost aggregate calls to those found before. -/
theorem collectAggregates_eq (s : Symbol) (found : List Symbol) :
    collectAggregates found s = s.outermost.foldl insertNew found := by
  induction s generalizing found with
  | call f args ih =>
    by_cases hf : isAggregateName f = true
    · rw [collectAggregates, if_pos hf, outermost_call_of_aggregate hf]
      rfl
    · rw [collectAggregates, if_neg hf, outermost_call_of_not_aggregate (by simpa using hf)]
      clear hf
      induction args generalizing found with
      | nil => rfl
      | cons a as ihas =>
        rw [collectAggregatesIn, ih a (by simp), ihas (fun b hb => ih b (by simp [hb])),
          List.flatMap_cons, List.foldl_append]
  | _ => rfl

theorem collectAggregatesIn_eq (as found : List Symbol) :
    collectAggregatesIn found as = (as.flatMap outermost).foldl insertNew found := by
  induction as generalizing found with
  | nil => rfl
  | cons a as ih =>
    rw [collectAggregatesIn, ih, collectAggregates_eq, List.flatMap_cons, List.foldl_append]

end Symbol

/-! ### The split of a query -/

/-- The symbols in which a query calls aggregates: its outputs, then HAVING, then ORDER BY. -/
def Select.symbols (q : Select) : List Symbol :=
  q.outputs ++ q.having.toList ++ q.orderBy.elim [] (·.symbols)

theorem Select.having_mem_symbols {q : Select} {h : Symbol} (hq : q.having = some h) :
    h ∈ q.symbols := by
  simp [Select.symbols, hq]

theorem Select.orderBy_mem_symbols {q : Select} {o : OrderBy} (hq : q.orderBy = some o) {s : Symbol}
    (hs : s ∈ o.symbols) : s ∈ q.symbols := by
  simp [Select.symbols, hq, hs]

theorem Select.output_mem_symbols {q : Select} {s : Symbol} (hs : s ∈ q.outputs) :
    s ∈ q.symbols := by
  simp [Select.symbols, hs]

namespace Split

/-- The aggregates of a query are the outermost aggregate calls of its symbols, each once. -/
theorem aggregatesOf_eq (q : Select) :
    aggregatesOf q = distinct (q.symbols.flatMap (·.outermost)) := by
  simp only [aggregatesOf, Symbol.collectAggregatesIn_eq, distinct, Select.symbols,
    List.flatMap_append, List.foldl_append]

theorem mem_aggregates {q : Select} {a : Symbol} (h : a ∈ (ofSelect q).aggregates) :
    ∃ s ∈ q.symbols, a ∈ s.outermost := by
  have ha : a ∈ aggregatesOf q := h
  rw [aggregatesOf_eq] at ha
  exact List.mem_flatMap.mp (mem_of_mem_distinct ha)

theorem isAggregate_of_mem {q : Select} {a : Symbol} (h : a ∈ (ofSelect q).aggregates) :
    a.isAggregate = true := by
  obtain ⟨s, -, has⟩ := mem_aggregates h
  exact (Symbol.outermost_spec has).1

theorem exists_mem_aggregates {q : Select} {s a : Symbol} (hs : s ∈ q.symbols)
    (ha : a ∈ s.outermost) : ∃ b ∈ (ofSelect q).aggregates, (b == a) = true := by
  show ∃ b ∈ aggregatesOf q, (b == a) = true
  rw [aggregatesOf_eq]
  exact exists_mem_distinct (List.mem_flatMap.mpr ⟨s, hs, ha⟩)

theorem aggregates_eq_nil {q : Select} (h : ∀ s ∈ q.symbols, s.IsRowLevel) :
    (ofSelect q).aggregates = [] := by
  show aggregatesOf q = []
  have hn : q.symbols.flatMap (·.outermost) = [] :=
    List.flatMap_eq_nil_iff.mpr fun s hs => Symbol.outermost_eq_nil (h s hs)
  rw [aggregatesOf_eq, hn]
  rfl

end Split

end ShardedQuery
