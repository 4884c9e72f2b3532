import ShardedQuery.Proofs.Symbol.RowLevel

/-!
# The entries of an aggregation

An aggregation has an entry for each aggregate call of a query.  In one tier the entry computes the
call from what is collected; in two tiers the lower one computes a partial state, and the upper one
merges the states that it finds in the column of the call.

* `Aggregation.Computes`, `Aggregation.Merges` — what an entry of either kind has to do with a call.
* `Aggregation.EachOnce` — every call has exactly one entry, and every entry exactly one call.
* `Projection.Aggregates`, `Projection.IsTier` — a projection aggregates, and has one entry for each
  call.
* `Split.IsAggregable` — keys and aggregate calls that can be told apart in a row.
* `Split.IsAggregable.isTier_computes`, `isTier_merges` — **the aggregations of such calls are
  tiers**.
-/

namespace ShardedQuery

namespace Projection

/-- The keys of the groups that the projection makes.  They are the first columns of its rows. -/
def keys : Projection → List Symbol
  | group keys .. => keys
  | aggregation .. | filter .. | topN .. | orderedTopN .. | eval _ => []

/-- The aggregates that the projection computes.  They are the columns behind the keys. -/
def entries : Projection → List Aggregation
  | aggregation aggregations .. => aggregations
  | group _ values .. => values
  | filter .. | topN .. | orderedTopN .. | eval _ => []

/-- The projection is an aggregation by the keys, of the aggregates, over rows with the columns
`inputs`. -/
structure Aggregates (inputs keys aggregates : List Symbol) (mode : AggregateMode)
    (p : Projection) : Prop where
  hasMode : p.mode? = some mode
  readsKeys : Symbol.readAllFrom inputs keys = .ok p.keys
  readsCalls : aggregates.mapM (Aggregation.ofCall inputs mode) = .ok p.entries

variable {inputs keys aggregates : List Symbol} {mode : AggregateMode} {scope : Granularity}
  {p : Projection}

theorem aggregates_aggregationOf (h : aggregationOf inputs aggregates mode scope = .ok p) :
    p.Aggregates inputs [] aggregates mode := by
  obtain ⟨ags, hags, rfl⟩ := Engine.aggregationOf_eq_ok h
  exact ⟨rfl, rfl, hags⟩

theorem aggregates_groupOf (h : groupOf inputs keys aggregates mode scope = .ok p) :
    p.Aggregates inputs keys aggregates mode := by
  obtain ⟨keys', ags, hkeys, hags, rfl⟩ := Engine.groupOf_eq_ok h
  exact ⟨rfl, hkeys, hags⟩

theorem symbols_of_mode? (h : p.mode? = some mode) :
    p.symbols = p.keys ++ p.entries.flatMap (·.inputs) := by
  cases p with
  | aggregation | group => rfl
  | filter | topN | orderedTopN | eval => cases h

end Projection

namespace Aggregation

/-! ### Calls and entries -/

/-- The entry computes the call over rows with these columns: it has the same function, and its
inputs are the arguments. -/
def Computes (columns : List Symbol) (e : Aggregation) : Symbol → Prop
  | .call f args => e.function = f ∧ List.Forall₂ (Symbol.FetchedAs columns) args e.inputs
  | .literal _ | .reference _ | .input _ | .parameter _ => False

/-- The entry merges partial states of the call: its one input is the column in which a lower tier
has put them, which computes the call over rows with these columns. -/
def Merges (columns : List Symbol) (lower : Projection) (e : Aggregation) (a : Symbol) : Prop :=
  ∃ m l, lower.entries[m]? = some l ∧ l.Computes columns a ∧ e.function = l.function ∧
    e.inputs = [.input (lower.keys.length + m)]

/-- Exactly one entry belongs to each call, and the other way around. -/
structure EachOnce (R : Aggregation → Symbol → Prop) (entries : List Aggregation)
    (aggregates : List Symbol) : Prop where
  length : entries.length = aggregates.length
  iff : ∀ (i j : Nat) (e : Aggregation) (a : Symbol), entries[i]? = some e →
    aggregates[j]? = some a → (R e a ↔ i = j)

variable {columns inputs : List Symbol} {lower : Projection} {e : Aggregation} {a b : Symbol}

/-- An entry tells which call it computes. -/
theorem Computes.unique (ha : e.Computes columns a) (hb : e.Computes columns b) :
    (a == b) = true := by
  cases a with
  | call f args =>
    cases b with
    | call g args' =>
      obtain ⟨hf, hargs⟩ := ha
      obtain ⟨hg, hargs'⟩ := hb
      refine (Symbol.call_beq_iff f args _).mpr ⟨args', by rw [← hf, hg], ?_⟩
      clear hf hg
      generalize e.inputs = read at hargs hargs'
      induction hargs generalizing args' with
      | nil =>
        cases hargs'
        exact .nil
      | cons hfetched _ ih =>
        cases hargs' with
        | cons hfetched' hrest => exact .cons (hfetched.unique hfetched') (ih _ hrest)
    | literal | reference | input | parameter => exact hb.elim
  | literal | reference | input | parameter => exact ha.elim

theorem Computes.isRowLevel (h : e.Computes columns a) : ∀ t ∈ e.inputs, t.IsRowLevel := by
  cases a with
  | call f args =>
    intro t ht
    obtain ⟨arg, -, hfetched⟩ := exists_of_mem_right h.2 ht
    exact hfetched.isRowLevel
  | literal | reference | input | parameter => exact h.elim

/-- The entry of a call computes it if its arguments are fetched. -/
theorem computes_ofCall {mode : AggregateMode} (hmode : mode ≠ .partialToFinal)
    (hfetched : ∀ arg ∈ a.arguments, arg.isConstant = true ∨ ∃ b ∈ columns, (b == arg) = true)
    (h : ofCall columns mode a = .ok e) : e.Computes columns a := by
  cases a with
  | call f args =>
    obtain ⟨read, hread, rfl⟩ : ∃ read, Symbol.readAllFrom columns args = .ok read ∧
        e = ⟨f, read⟩ := by
      cases mode with
      | partialToFinal => exact absurd rfl hmode
      | rowsToPartial | rowsToFinal =>
        obtain ⟨read, hread, h⟩ := except_bind_eq_ok.mp h
        cases h
        exact ⟨read, hread, rfl⟩
    rw [Symbol.readAllFrom_eq] at hread
    refine ⟨rfl, ((List.forall₂_and_left _ _).mpr
      ⟨fun arg harg => harg, forall₂_of_except_mapM hread⟩).imp fun arg t harg => ?_⟩
    exact Symbol.fetchedAs_readFrom (hfetched arg harg.1) harg.2
  | literal | reference | input | parameter => cases h

theorem Merges.unique (ha : e.Merges columns lower a) (hb : e.Merges columns lower b) :
    (a == b) = true := by
  obtain ⟨m, l, hl, hcomputes, -, hinputs⟩ := ha
  obtain ⟨m', l', hl', hcomputes', -, hinputs'⟩ := hb
  have hm : m = m' := by
    have hinput := hinputs.symm.trans hinputs'
    simpa using hinput
  rw [hm, hl'] at hl
  cases hl
  exact hcomputes.unique hcomputes'

theorem Merges.isRowLevel (h : e.Merges columns lower a) : ∀ t ∈ e.inputs, t.IsRowLevel := by
  obtain ⟨m, l, -, -, -, hinputs⟩ := h
  intro t ht
  rw [hinputs, List.mem_singleton] at ht
  rw [ht]
  rfl

/-- The entry of a call merges the states in the column of the call. -/
theorem merges_ofCall {i : Nat} {l : Aggregation} (hl : lower.entries[i]? = some l)
    (hcomputes : l.Computes columns a)
    (hposition : position? inputs a = some (lower.keys.length + i))
    (h : ofCall inputs .partialToFinal a = .ok e) : e.Merges columns lower a := by
  cases a with
  | call f args =>
    obtain ⟨t, ht, h⟩ := except_bind_eq_ok.mp h
    cases h
    rw [Symbol.readFrom_of_position? hposition] at ht
    cases ht
    exact ⟨i, l, hl, hcomputes, hcomputes.1.symm, rfl⟩
  | literal | reference | input | parameter => exact hcomputes.elim

section EachOnce

variable {R : Aggregation → Symbol → Prop} {entries : List Aggregation} {aggregates : List Symbol}

/-- One entry after the other belongs to one call after the other, and to no other call. -/
theorem eachOnce_of_forall₂ (h : List.Forall₂ (fun a e => R e a) aggregates entries)
    (hdistinct : aggregates.Pairwise fun a b => (a == b) = false)
    (hunique : ∀ e a b, R e a → R e b → (a == b) = true) : EachOnce R entries aggregates := by
  refine ⟨h.length_eq.symm, fun i j e a he ha => ⟨fun hea => ?_, fun hij => ?_⟩⟩
  · obtain ⟨b, hb, heb⟩ := exists_getElem?_of_forall₂ h.flip he
    exact place_unique hdistinct hb ha (hunique e b a heb hea)
  · obtain ⟨e', he', hea⟩ := exists_getElem?_of_forall₂ h ha
    rw [← hij, he] at he'
    cases he'
    exact hea

theorem EachOnce.exists_of_mem (h : EachOnce R entries aggregates) {e : Aggregation}
    (he : e ∈ entries) : ∃ a, R e a := by
  obtain ⟨i, hi, hget⟩ := List.mem_iff_getElem.mp he
  have hi' : i < aggregates.length := h.length ▸ hi
  refine ⟨aggregates[i], (h.iff i i e aggregates[i] ?_ ?_).mpr rfl⟩
  · rw [List.getElem?_eq_getElem hi, hget]
  · exact List.getElem?_eq_getElem hi'

end EachOnce

end Aggregation

/-! ### Tiers -/

namespace Projection

/-- A tier: an aggregation in this mode with exactly one entry for each aggregate, no symbol of which
calls an aggregate. -/
structure IsTier (mode : AggregateMode) (R : Aggregation → Symbol → Prop) (aggregates : List Symbol)
    (p : Projection) : Prop where
  hasMode : p.mode? = some mode
  entries : Aggregation.EachOnce R p.entries aggregates
  rowLevel : p.IsRowLevel

variable {inputs keys aggregates : List Symbol} {mode : AggregateMode} {p : Projection}

theorem Aggregates.isTier (h : p.Aggregates inputs keys aggregates mode)
    (hkeys : ∀ k ∈ keys, k.IsRowLevel) {R : Aggregation → Symbol → Prop}
    (hentries : Aggregation.EachOnce R p.entries aggregates)
    (hinputs : ∀ e a, R e a → ∀ t ∈ e.inputs, t.IsRowLevel) : p.IsTier mode R aggregates := by
  refine ⟨h.hasMode, hentries, fun s hs => ?_⟩
  rw [symbols_of_mode? h.hasMode] at hs
  rcases List.mem_append.mp hs with hs | hs
  · exact Symbol.isRowLevel_readAllFrom (fun k hk => .of_isRowLevel (hkeys k hk)) h.readsKeys s hs
  · obtain ⟨e, he, hs⟩ := List.mem_flatMap.mp hs
    obtain ⟨a, hea⟩ := hentries.exists_of_mem he
    exact hinputs e a hea s hs

end Projection

namespace Split

/-- Keys without aggregates, and aggregate calls each of which occurs once.  The arguments of the
calls are columns, or constants. -/
structure IsAggregable (columns keys aggregates : List Symbol) : Prop where
  rowLevel : ∀ k ∈ keys, k.IsRowLevel
  aggregate : ∀ a ∈ aggregates, a.isAggregate = true
  distinct : aggregates.Pairwise fun a b => (a == b) = false
  fetched : ∀ a ∈ aggregates, ∀ arg ∈ a.arguments,
    arg.isConstant = true ∨ ∃ b ∈ columns, (b == arg) = true

namespace IsAggregable

variable {columns keys aggregates : List Symbol} {mode : AggregateMode} {p lower upper : Projection}
  (h : IsAggregable columns keys aggregates)

include h

/-- No key is an aggregate. -/
theorem key_ne {k a : Symbol} (hk : k ∈ keys) (ha : a ∈ aggregates) : (k == a) = false := by
  by_contra heq
  rw [Bool.not_eq_false] at heq
  have haggregate := h.aggregate a ha
  rw [← Symbol.isAggregate_congr heq, (h.rowLevel k hk).not_aggregate] at haggregate
  cases haggregate

theorem forall₂_computes (hmode : mode ≠ .partialToFinal)
    (hp : p.Aggregates columns keys aggregates mode) :
    List.Forall₂ (fun a e => Aggregation.Computes columns e a) aggregates p.entries :=
  ((List.forall₂_and_left _ _).mpr ⟨fun _ ha => ha, forall₂_of_except_mapM hp.readsCalls⟩).imp
    fun a _ hae => Aggregation.computes_ofCall hmode (h.fetched a hae.1) hae.2

/-- **An aggregation of collected rows computes each aggregate once.** -/
theorem isTier_computes (hmode : mode ≠ .partialToFinal)
    (hp : p.Aggregates columns keys aggregates mode) :
    p.IsTier mode (Aggregation.Computes columns) aggregates :=
  hp.isTier h.rowLevel
    (Aggregation.eachOnce_of_forall₂ (h.forall₂_computes hmode hp) h.distinct
      fun _ _ _ => Aggregation.Computes.unique)
    fun _ _ => Aggregation.Computes.isRowLevel

/-- **An aggregation of partial states merges those of each aggregate once.** -/
theorem isTier_merges (hlower : lower.Aggregates columns keys aggregates .rowsToPartial)
    (hupper : upper.Aggregates (keys ++ aggregates) keys aggregates .partialToFinal) :
    upper.IsTier .partialToFinal (Aggregation.Merges columns lower) aggregates := by
  have hcomputes := h.forall₂_computes (by decide) hlower
  have hcalls := forall₂_of_except_mapM hupper.readsCalls
  have hkeys : lower.keys.length = keys.length := Engine.length_of_readAllFrom hlower.readsKeys
  have hmerges : List.Forall₂ (fun a e => Aggregation.Merges columns lower e a) aggregates
      upper.entries := by
    refine List.forall₂_iff_get.mpr ⟨hcalls.length_eq, fun i hi hj => ?_⟩
    have ha := List.getElem?_eq_getElem hi
    obtain ⟨l, hl, hcomputed⟩ := exists_getElem?_of_forall₂ hcomputes ha
    refine Aggregation.merges_ofCall hl hcomputed ?_ ((List.forall₂_iff_get.mp hcalls).2 i hi hj)
    -- the state of an aggregate is behind the keys, in the place of the aggregate
    rw [hkeys]
    exact position?_append_of_distinct h.distinct
      (fun k hk => h.key_ne hk (List.getElem_mem hi)) ha
  exact hupper.isTier h.rowLevel
    (Aggregation.eachOnce_of_forall₂ hmerges h.distinct fun _ _ _ => Aggregation.Merges.unique)
    fun _ _ => Aggregation.Merges.isRowLevel

end IsAggregable

end Split

end ShardedQuery
