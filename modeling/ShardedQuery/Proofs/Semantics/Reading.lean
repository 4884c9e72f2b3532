import ShardedQuery.Proofs.Planning.Outcomes
import ShardedQuery.Proofs.Semantics.Runs

/-!
# Reading rows

A row between two steps holds the values of some symbols at a place.  The planner rewrites the
symbols of the next step so that they read the columns of such rows; here they are shown to have in
the row the values that the original symbols have at the place.

* `Symbol.AggregatesAmong inputs s` — the aggregate calls of `s` are among the columns `inputs`.
* `Symbol.ReadableFrom inputs s` — they are, and functions are named in lower case.
* `Symbol.readFrom_congr` — equal symbols are rewritten to equal ones.
* `Engine.value_readFrom` — a rewritten symbol has the value of the original one.
* `Engine.project_readAllFrom` — a row laid out anew holds the values of the new symbols.
* `Engine.project_inputColumns` — passing all columns on changes nothing.
-/

namespace ShardedQuery

/-- Every aggregate that the symbol calls is a column. -/
def Symbol.AggregatesAmong (inputs : List Symbol) (s : Symbol) : Prop :=
  ∀ a ∈ s.outermost, ∃ b ∈ inputs, (b == a) = true

namespace Symbol.AggregatesAmong

variable {inputs : List Symbol}

theorem of_isRowLevel {s : Symbol} (h : s.IsRowLevel) : s.AggregatesAmong inputs := by
  intro a ha
  rw [outermost_eq_nil h] at ha
  cases ha

variable {f : String} {args : List Symbol}

theorem argument (h : (call f args).AggregatesAmong inputs) (hf : isAggregateName f = false)
    {a : Symbol} (ha : a ∈ args) : a.AggregatesAmong inputs := by
  intro b hb
  refine h b ?_
  rw [outermost_call_of_not_aggregate hf]
  exact List.mem_flatMap.mpr ⟨a, ha, hb⟩

/-- A call that is no column is no aggregate. -/
theorem not_aggregate (h : (call f args).AggregatesAmong inputs)
    (hnone : position? inputs (call f args) = none) : isAggregateName f = false := by
  by_contra hf
  have hself : call f args ∈ (call f args).outermost := by
    rw [outermost_call_of_aggregate (by simpa using hf)]
    exact List.mem_singleton.mpr rfl
  obtain ⟨b, hb, hba⟩ := h _ hself
  obtain ⟨i, hi⟩ := position?_isSome hb hba
  rw [hnone] at hi
  cases hi

end Symbol.AggregatesAmong

/-- The symbol can be computed from rows with these columns: its calls are named in lower case, and
every aggregate that it calls is a column. -/
structure Symbol.ReadableFrom (inputs : List Symbol) (s : Symbol) : Prop where
  lowercase : s.IsLowercase
  aggregates : ∀ a ∈ s.outermost, ∃ b ∈ inputs, (b == a) = true

/-- A symbol without aggregates can be computed from any rows. -/
theorem Symbol.readableFrom_of_isRowLevel {inputs : List Symbol} {s : Symbol} (hl : s.IsLowercase)
    (hr : s.IsRowLevel) : s.ReadableFrom inputs where
  lowercase := hl
  aggregates := AggregatesAmong.of_isRowLevel hr

theorem Symbol.ReadableFrom.argument {inputs : List Symbol} {f : String} {args : List Symbol}
    (h : (call f args).ReadableFrom inputs) (hf : isAggregateName f = false) {a : Symbol}
    (ha : a ∈ args) : a.ReadableFrom inputs where
  lowercase := ((isLowercase_call f args).mp h.lowercase).2 a ha
  aggregates := AggregatesAmong.argument h.aggregates hf ha

/-- A call that can be computed and is no column is no aggregate. -/
theorem Symbol.ReadableFrom.not_aggregate {inputs : List Symbol} {f : String} {args : List Symbol}
    (h : (call f args).ReadableFrom inputs) (hnone : position? inputs (call f args) = none) :
    isAggregateName f = false :=
  AggregatesAmong.not_aggregate h.aggregates hnone

/-- What a symbol over rows is: a column, or a constant, or a call of symbols over these rows. -/
theorem Symbol.readFrom_eq_ok {inputs : List Symbol} {s t : Symbol}
    (h : s.readFrom inputs = .ok t) :
    (∃ i, position? inputs s = some i ∧ t = input i) ∨ position? inputs s = none ∧
      (s.isConstant = true ∧ t = s ∨ ∃ f args args', s = call f args ∧
        args.mapM (readFrom inputs) = .ok args' ∧ t = mkCall f args') := by
  cases hi : position? inputs s with
  | some i =>
    cases s <;> simp only [readFrom, hi, Except.ok.injEq] at h <;> exact .inl ⟨i, rfl, h.symm⟩
  | none =>
    refine .inr ⟨rfl, ?_⟩
    cases s with
    | call f args =>
      simp only [readFrom, hi, readAllFrom_eq] at h
      obtain ⟨args', hargs, ht⟩ := except_bind_eq_ok.mp h
      cases ht
      exact .inr ⟨f, args, args', rfl, hargs, rfl⟩
    | literal v | parameter n =>
      simp only [readFrom, hi, Except.ok.injEq] at h
      exact .inl ⟨rfl, h.symm⟩
    | reference c | input n =>
      simp only [readFrom, hi] at h
      cases h

/-- A symbol that is found among the columns is read from there. -/
theorem Symbol.readFrom_of_position? {inputs : List Symbol} {s : Symbol} {i : Nat}
    (h : position? inputs s = some i) : s.readFrom inputs = .ok (input i) := by
  cases s <;> simp only [readFrom, h]

/-- **Equal symbols are read as equal symbols.** -/
theorem Symbol.readFrom_congr {inputs : List Symbol} {s s' t t' : Symbol} (hs : (s == s') = true)
    (ht : s.readFrom inputs = .ok t) (ht' : s'.readFrom inputs = .ok t') : (t == t') = true := by
  induction s generalizing s' t t' with
  | call f args ih =>
    obtain ⟨args', rfl, hargs⟩ := (call_beq_iff f args s').mp hs
    rcases readFrom_eq_ok ht with
      ⟨i, hi, rfl⟩ | ⟨hnone, ⟨hconstant, -⟩ | ⟨_, _, read, heq, hread, rfl⟩⟩
    · rw [position?_congr hs] at hi
      rw [readFrom_of_position? hi] at ht'
      cases ht'
      exact beq_refl _
    · cases hconstant
    · cases heq
      rw [position?_congr hs] at hnone
      rcases readFrom_eq_ok ht' with
        ⟨i, hi, -⟩ | ⟨-, ⟨hconstant, -⟩ | ⟨_, _, read', heq, hread', rfl⟩⟩
      · rw [hnone] at hi
        cases hi
      · cases hconstant
      · cases heq
        refine (call_beq_iff _ _ _).mpr ⟨read', rfl, ?_⟩
        replace hread := forall₂_of_except_mapM hread
        replace hread' := forall₂_of_except_mapM hread'
        clear hs ht ht' hnone
        induction hargs generalizing read read' with
        | nil =>
          cases hread
          cases hread'
          exact .nil
        | cons hab _ ihargs =>
          cases hread with
          | cons hx hxs =>
            cases hread' with
            | cons hy hys =>
              exact .cons (ih _ List.mem_cons_self hab hx hy)
                (ihargs (fun a ha => ih a (List.mem_cons_of_mem _ ha)) _ _ hxs hys)
  | _ =>
    rcases readFrom_eq_ok ht with ⟨i, hi, rfl⟩ | ⟨hnone, ⟨hconstant, rfl⟩ | ⟨_, _, _, heq, -⟩⟩
    · rw [position?_congr hs] at hi
      rw [readFrom_of_position? hi] at ht'
      cases ht'
      exact beq_refl _
    · rw [position?_congr hs] at hnone
      rcases readFrom_eq_ok ht' with ⟨i, hi, -⟩ | ⟨-, ⟨-, rfl⟩ | ⟨_, _, _, rfl, -⟩⟩
      · rw [hnone] at hi
        cases hi
      · exact hs
      · cases hs
    · cases heq

namespace Engine

variable (E : Engine)

/-! ### The columns of a row -/

theorem getElem?_tuple (outputs : List Symbol) (x : Scope) (i : Nat) :
    (E.tuple outputs x)[i]? = (outputs[i]?).map fun s => .value (E.value x s) := by
  rw [tuple, values_eq, List.map_map, List.getElem?_map]
  rfl

theorem tuple_eq_map (outputs : List Symbol) (x : Scope) :
    E.tuple outputs x = outputs.map fun s => .value (E.value x s) := by
  rw [tuple, values_eq, List.map_map]
  rfl

/-- What the handler passes on of a row. -/
theorem literal_tuple (outputs : List Symbol) (x : Scope) :
    (E.tuple outputs x).map Cell.literal = E.values x outputs := by
  rw [tuple, List.map_map]
  exact List.map_id _

/-- A position reads the value of the symbol in that column. -/
theorem value_input {outputs : List Symbol} {i : Nat} {s : Symbol} (h : outputs[i]? = some s)
    (x : Scope) : E.value (E.inRow (E.tuple outputs x)) (.input i) = E.value x s := by
  show ((E.tuple outputs x)[i]?).elim .null Cell.literal = _
  rw [getElem?_tuple, h]
  rfl

/-- The place of a symbol among the columns is read as the symbol itself. -/
theorem value_position {inputs : List Symbol} {s : Symbol} {i : Nat}
    (h : position? inputs s = some i) (x : Scope) :
    E.value (E.inRow (E.tuple inputs x)) (.input i) = E.value x s := by
  obtain ⟨y, hy, hys⟩ := position?_eq_some h
  rw [E.value_input hy x, E.value_congr x hys]

/-- Calls with arguments of equal values. -/
theorem map_value_of_forall₂ {x y : Scope} {as bs : List Symbol}
    (h : List.Forall₂ (fun a b => E.value y b = E.value x a) as bs) :
    bs.map (E.value y) = as.map (E.value x) := by
  induction h with
  | nil => rfl
  | cons hab _ ih => rw [List.map_cons, List.map_cons, hab, ih]

/-! ### Symbols over rows -/

/-- **A symbol read from the columns has the value of the symbol itself.** -/
theorem value_readFrom {inputs : List Symbol} {s t : Symbol} (h : s.ReadableFrom inputs)
    (ht : s.readFrom inputs = .ok t) (x : Scope) :
    E.value (E.inRow (E.tuple inputs x)) t = E.value x s := by
  induction s generalizing t with
  | call f args ih =>
    rcases Symbol.readFrom_eq_ok ht with ⟨i, hi, rfl⟩ | ⟨hnone, ⟨hs, -⟩ | hcall⟩
    · exact E.value_position hi x
    · cases hs
    · obtain ⟨_, _, args', hs, hargs, rfl⟩ := hcall
      cases hs
      have hf : Symbol.isAggregateName f = false := h.not_aggregate hnone
      have hread : List.Forall₂ (fun a b => E.value (E.inRow (E.tuple inputs x)) b = E.value x a)
          args args' :=
        ((List.forall₂_and_left _ _).mpr ⟨fun a ha => ha, forall₂_of_except_mapM hargs⟩).imp
          fun a b hab => ih a hab.1 (h.argument hf hab.1) hab.2
      rw [Symbol.mkCall, ((Symbol.isLowercase_call f args).mp h.lowercase).1, value_call,
        value_call, E.map_value_of_forall₂ hread, x.whole_aggregate f args hf,
        (E.inRow _).whole_aggregate f args' hf]
  | _ =>
    rcases Symbol.readFrom_eq_ok ht with ⟨i, hi, rfl⟩ | ⟨-, ⟨hs, rfl⟩ | ⟨_, _, _, hs, -⟩⟩
    · exact E.value_position hi x
    · first | rfl | cases hs
    · cases hs

/-- **A symbol read from the columns has the cell of its value.** -/
theorem cellOf_readFrom {inputs : List Symbol} {s t : Symbol} (h : s.ReadableFrom inputs)
    (ht : s.readFrom inputs = .ok t) (x : Scope) :
    E.cellOf (E.tuple inputs x) t = .value (E.value x s) := by
  have hv := E.value_readFrom h ht x
  rcases Symbol.readFrom_eq_ok ht with ⟨i, hi, rfl⟩ | ⟨-, ⟨hs, rfl⟩ | ⟨f, args, args', -, -, rfl⟩⟩
  · obtain ⟨y, hy, hys⟩ := position?_eq_some hi
    rw [cellOf, getElem?_tuple, hy, Option.map_some, Option.getD_some, E.value_congr x hys]
  · cases t with
    | literal v => rw [cellOf, hv]; exact fun i hi => nomatch hi
    | parameter i => rw [cellOf, hv]; exact fun i hi => nomatch hi
    | _ => cases hs
  · rw [cellOf, hv]
    exact fun i hi => nomatch hi

section Several

variable {inputs as bs : List Symbol} (h : ∀ a ∈ as, a.ReadableFrom inputs)
  (hb : Symbol.readAllFrom inputs as = .ok bs)

include h hb

theorem values_readAllFrom (x : Scope) :
    E.values (E.inRow (E.tuple inputs x)) bs = E.values x as := by
  rw [Symbol.readAllFrom_eq] at hb
  rw [values_eq, values_eq]
  refine E.map_value_of_forall₂
    (((List.forall₂_and_left _ _).mpr ⟨h, forall₂_of_except_mapM hb⟩).imp fun a b hab => ?_)
  exact E.value_readFrom hab.1 hab.2 x

/-- **A row laid out anew holds the values of the new symbols.** -/
theorem project_readAllFrom (x : Scope) : E.project bs (E.tuple inputs x) = E.tuple as x := by
  rw [Symbol.readAllFrom_eq] at hb
  have hread := (List.forall₂_and_left _ _).mpr ⟨h, forall₂_of_except_mapM hb⟩
  rw [tuple_eq_map E as, project]
  clear h hb
  induction hread with
  | nil => rfl
  | cons hab _ ih => rw [List.map_cons, List.map_cons, E.cellOf_readFrom hab.1 hab.2, ih]

end Several

/-- Passing on all columns changes nothing. -/
theorem project_columns (row : E.Tuple) :
    E.project (Symbol.inputColumns row.length) row = row := by
  refine List.ext_getElem? fun i => ?_
  rw [project, Symbol.inputColumns, List.map_map, List.getElem?_map]
  by_cases hi : i < row.length
  · rw [List.getElem?_range hi, List.getElem?_eq_getElem hi]
    show some (E.cellOf row (.input i)) = _
    rw [cellOf, List.getElem?_eq_getElem hi]
    rfl
  · rw [List.getElem?_eq_none (by simpa using hi), List.getElem?_eq_none (by simpa using hi)]
    rfl

theorem project_inputColumns (outputs : List Symbol) (x : Scope) :
    E.project (Symbol.inputColumns outputs.length) (E.tuple outputs x) = E.tuple outputs x := by
  have hlength : (E.tuple outputs x).length = outputs.length := by
    rw [tuple_eq_map, List.length_map]
  rw [← hlength, project_columns]

end Engine

end ShardedQuery
