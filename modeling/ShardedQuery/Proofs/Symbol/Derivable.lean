import ShardedQuery.Proofs.Semantics.Reading

/-!
# Derivable symbols

Over rows with known columns a symbol can be read if it is built from columns and constants by
calls.

* `Symbol.DerivableFrom` — such a symbol.
* `Symbol.exists_readFrom_iff` — **the planner reads a symbol from columns exactly if it is
  derivable from them**.
* `Projection.exists_groupOf` and its siblings — with derivable symbols every projection of a plan
  can be made.
-/

namespace ShardedQuery

/-! ### Derivable symbols -/

/-- The symbol is built from members of a list and from constants by calls. -/
inductive Symbol.DerivableFrom (columns : List Symbol) : Symbol → Prop where
  | member {s : Symbol} (h : ∃ b ∈ columns, (b == s) = true) : DerivableFrom columns s
  | literal (value : Literal) : DerivableFrom columns (.literal value)
  | parameter (index : Nat) : DerivableFrom columns (.parameter index)
  | call (function : String) {args : List Symbol} (h : ∀ a ∈ args, DerivableFrom columns a) :
      DerivableFrom columns (.call function args)

namespace Symbol

variable {columns : List Symbol} {s : Symbol}

theorem derivableFrom_of_mem (h : s ∈ columns) : s.DerivableFrom columns :=
  .member ⟨s, h, beq_refl s⟩

theorem derivableFrom_of_isConstant (h : s.isConstant = true) : s.DerivableFrom columns := by
  cases s with
  | literal v => exact .literal v
  | parameter i => exact .parameter i
  | _ => cases h

/-- What is derivable from some columns is derivable from all lists that have them. -/
theorem DerivableFrom.mono {more : List Symbol} (h : s.DerivableFrom columns)
    (hmore : ∀ b ∈ columns, ∃ c ∈ more, (c == b) = true) : s.DerivableFrom more := by
  induction h with
  | member hb =>
    obtain ⟨b, hb, hbs⟩ := hb
    obtain ⟨c, hc, hcb⟩ := hmore b hb
    exact .member ⟨c, hc, beq_trans hcb hbs⟩
  | literal v => exact .literal v
  | parameter i => exact .parameter i
  | call f _ ih => exact .call f ih

end Symbol

/-- A computation succeeds on a list if it does on every element. -/
theorem exists_mapM {ε α β : Type} {f : α → Except ε β} {xs : List α}
    (h : ∀ x ∈ xs, ∃ y, f x = .ok y) : ∃ ys, xs.mapM f = .ok ys := by
  induction xs with
  | nil => exact ⟨[], rfl⟩
  | cons x xs ih =>
    obtain ⟨y, hy⟩ := h x List.mem_cons_self
    obtain ⟨ys, hys⟩ := ih fun x hx => h x (List.mem_cons_of_mem _ hx)
    exact ⟨y :: ys, by rw [List.mapM_cons, hy, hys]; rfl⟩

/-! ### Reading -/

namespace Symbol

variable {columns : List Symbol} {s : Symbol}

/-- A symbol that is a column is read from it. -/
theorem exists_readFrom_of_mem (h : ∃ b ∈ columns, (b == s) = true) :
    ∃ t, s.readFrom columns = .ok t := by
  obtain ⟨b, hb, hbs⟩ := h
  obtain ⟨i, hi⟩ := position?_isSome hb hbs
  cases s <;> exact ⟨input i, by simp only [readFrom, hi]⟩

theorem exists_readFrom (h : s.DerivableFrom columns) : ∃ t, s.readFrom columns = .ok t := by
  induction h with
  | member h => exact exists_readFrom_of_mem h
  | literal v | parameter i =>
    unfold readFrom
    split <;> exact ⟨_, rfl⟩
  | call f _ ih =>
    unfold readFrom
    split
    · exact ⟨_, rfl⟩
    · obtain ⟨args', hargs⟩ := exists_mapM ih
      exact ⟨mkCall f args', by rw [readAllFrom_eq, hargs]; rfl⟩

theorem derivableFrom_of_readFrom {t : Symbol} (h : s.readFrom columns = .ok t) :
    s.DerivableFrom columns := by
  induction s generalizing t with
  | call f args ih =>
    rcases readFrom_eq_ok h with ⟨i, hi, -⟩ | ⟨-, ⟨hconstant, -⟩ | ⟨_, _, args', hs, hargs, -⟩⟩
    · obtain ⟨b, hb, hbs⟩ := position?_eq_some hi
      exact .member ⟨b, List.mem_of_getElem? hb, hbs⟩
    · cases hconstant
    · cases hs
      refine .call f fun a ha => ?_
      obtain ⟨i, hi, rfl⟩ := List.getElem_of_mem ha
      have hread := forall₂_of_except_mapM hargs
      have hi' : i < args'.length := hread.length_eq ▸ hi
      exact ih _ ha (hread.get hi hi')
  | _ =>
    rcases readFrom_eq_ok h with ⟨i, hi, -⟩ | ⟨-, ⟨hconstant, -⟩ | ⟨_, _, _, hs, -⟩⟩
    · obtain ⟨b, hb, hbs⟩ := position?_eq_some hi
      exact .member ⟨b, List.mem_of_getElem? hb, hbs⟩
    · exact derivableFrom_of_isConstant hconstant
    · cases hs

/-- **A symbol can be read from columns exactly if it is derivable from them.** -/
theorem exists_readFrom_iff : (∃ t, s.readFrom columns = .ok t) ↔ s.DerivableFrom columns :=
  ⟨fun ⟨_, h⟩ => derivableFrom_of_readFrom h, exists_readFrom⟩

/-- What is derivable can be found out by reading. -/
instance (columns : List Symbol) : DecidablePred (DerivableFrom columns) := fun s =>
  match h : s.readFrom columns with
  | .ok t => isTrue (derivableFrom_of_readFrom h)
  | .error e => isFalse fun hs => by
      obtain ⟨t, ht⟩ := exists_readFrom hs
      rw [h] at ht
      cases ht

theorem exists_readAllFrom {symbols : List Symbol} (h : ∀ s ∈ symbols, s.DerivableFrom columns) :
    ∃ read, readAllFrom columns symbols = .ok read := by
  rw [readAllFrom_eq]
  exact exists_mapM fun s hs => exists_readFrom (h s hs)

end Symbol

/-! ### Projections -/

/-- An aggregate call whose arguments are derivable. -/
def Symbol.AggregableFrom (columns : List Symbol) (s : Symbol) : Prop :=
  ∃ function args, s = .call function args ∧ ∀ a ∈ args, a.DerivableFrom columns

section Calls

variable {columns : List Symbol} {s : Symbol}

/-- Over rows the arguments of the call are read. -/
theorem Aggregation.exists_ofCall {mode : AggregateMode} (hmode : mode ≠ .partialToFinal)
    (h : s.AggregableFrom columns) : ∃ a, Aggregation.ofCall columns mode s = .ok a := by
  obtain ⟨f, args, rfl, hargs⟩ := h
  obtain ⟨read, hread⟩ := Symbol.exists_readAllFrom hargs
  cases mode with
  | partialToFinal => exact absurd rfl hmode
  | rowsToPartial | rowsToFinal => exact ⟨⟨f, read⟩, by simp only [ofCall, hread]; rfl⟩

/-- Over partial states the column of the call itself is read. -/
theorem Aggregation.exists_ofCall_partial {rows : List Symbol} (hs : s.AggregableFrom rows)
    (h : s ∈ columns) : ∃ a, Aggregation.ofCall columns .partialToFinal s = .ok a := by
  obtain ⟨t, ht⟩ := Symbol.exists_readFrom (Symbol.derivableFrom_of_mem h)
  obtain ⟨f, args, rfl, -⟩ := hs
  exact ⟨⟨f, [t]⟩, by simp only [ofCall, ht]; rfl⟩

end Calls

namespace Projection

variable {columns keys aggregates : List Symbol} {mode : AggregateMode} (scope : Granularity)

theorem exists_aggregationOf (h : ∀ a ∈ aggregates, ∃ b, Aggregation.ofCall columns mode a = .ok b) :
    ∃ p, aggregationOf columns aggregates mode scope = .ok p := by
  obtain ⟨values, hvalues⟩ := exists_mapM h
  exact ⟨aggregation values mode scope, by rw [aggregationOf, hvalues]; rfl⟩

theorem exists_groupOf (hkeys : ∀ k ∈ keys, k.DerivableFrom columns)
    (h : ∀ a ∈ aggregates, ∃ b, Aggregation.ofCall columns mode a = .ok b) :
    ∃ p, groupOf columns keys aggregates mode scope = .ok p := by
  obtain ⟨read, hread⟩ := Symbol.exists_readAllFrom hkeys
  obtain ⟨values, hvalues⟩ := exists_mapM h
  exact ⟨group read values mode scope, by rw [groupOf, hread, hvalues]; rfl⟩

theorem exists_filterOf {having : Symbol} (h : having.DerivableFrom columns) :
    ∃ p, filterOf columns having = .ok p := by
  obtain ⟨read, hread⟩ := Symbol.exists_readFrom h
  exact ⟨filter read .shard, by rw [filterOf, hread]; rfl⟩

theorem exists_arrange {order : Option OrderBy} (window : Window) {outputs : List Symbol}
    (houtputs : ∀ s ∈ outputs, s.DerivableFrom columns)
    (horder : ∀ s ∈ order.elim [] (·.symbols), s.DerivableFrom columns) :
    ∃ p, arrange columns order window outputs = .ok p := by
  obtain ⟨read, hread⟩ := Symbol.exists_readAllFrom houtputs
  cases order with
  | none => exact ⟨_, by rw [arrange, hread]; rfl⟩
  | some o =>
    obtain ⟨keys, hkeys⟩ := Symbol.exists_readAllFrom horder
    refine ⟨orderedTopN window read (o.withKeys keys), ?_⟩
    have hkeys : Symbol.readAllFrom columns o.symbols = .ok keys := hkeys
    simp only [arrange, hread, hkeys]
    rfl

end Projection

end ShardedQuery
