import ShardedQuery.Proofs.Semantics.Emissions
import ShardedQuery.Proofs.Semantics.Grouping

/-!
# Aggregate calls in one tier and in two

An aggregation of records gives the values of the aggregates.  In two tiers the first gives partial
states of each piece, and the second reads them from their columns.

* `Split.IsGroupable` — keys without aggregates, and aggregates that are not nested.
* `Engine.pieceRow` — what the first tier makes of a piece.
* `Engine.aggregate_rowsToPartial`, `aggregate_rowsToFinal`, `aggregate_partialToFinal` — **the cell
  of an aggregate call in each mode**.
-/

namespace ShardedQuery

/-- Keys without aggregates, and aggregate calls that are not nested; all functions are named in
lower case. -/
structure Split.IsGroupable (keys aggregates : List Symbol) : Prop where
  rowLevel : ∀ k ∈ keys, k.IsRowLevel
  lowercase : ∀ s ∈ keys ++ aggregates, s.IsLowercase
  aggregate : ∀ a ∈ aggregates, a.isAggregate = true
  unnested : ∀ a ∈ aggregates, a.IsUnnested

namespace Symbol

theorem exists_call_of_isAggregate {a : Symbol} (h : a.isAggregate = true) :
    ∃ f args, a = call f args ∧ isAggregateName f = true := by
  cases a with
  | call f args => exact ⟨f, args, rfl, h⟩
  | _ => cases h

theorem isAggregate_congr {s t : Symbol} (h : (s == t) = true) : s.isAggregate = t.isAggregate := by
  cases s with
  | call f args =>
    obtain ⟨bs, rfl, -⟩ := (call_beq_iff f args t).mp h
    rfl
  | literal v => cases t <;> first | rfl | cases h
  | reference c => cases t <;> first | rfl | cases h
  | input i => cases t <;> first | rfl | cases h
  | parameter i => cases t <;> first | rfl | cases h

theorem IsRowLevel.not_aggregate {s : Symbol} (h : s.IsRowLevel) : s.isAggregate = false := by
  cases s with
  | call f args => exact ((isRowLevel_call f args).mp h).1
  | _ => rfl

end Symbol

namespace Split.IsGroupable

variable {keys aggregates inputs : List Symbol} (h : IsGroupable keys aggregates)

include h

theorem readable_key {k : Symbol} (hk : k ∈ keys) : k.ReadableFrom inputs :=
  Symbol.readableFrom_of_isRowLevel (h.lowercase k (List.mem_append_left _ hk)) (h.rowLevel k hk)

theorem readable_argument {f : String} {args : List Symbol} (ha : .call f args ∈ aggregates)
    {a : Symbol} (harg : a ∈ args) : a.ReadableFrom inputs := by
  have hlower := h.lowercase _ (List.mem_append_right keys ha)
  have hunnested := h.unnested _ ha
  rw [Symbol.isLowercase_call] at hlower
  rw [Symbol.isUnnested_call] at hunnested
  exact Symbol.readableFrom_of_isRowLevel (hlower.2 a harg)
    (hunnested.1 (h.aggregate _ ha) a harg)

end Split.IsGroupable

namespace Engine

variable (E : Engine)

/-- The partial state of an aggregate call over some records. -/
def stateCell (rs : List Record) : Symbol → E.Cell
  | .call f args => .state f (E.stateOver f args rs)
  | _ => .value .null

/-- What the first tier makes of a piece: its keys and the partial states of the aggregates. -/
def pieceRow (aggregates : List Symbol) (p : Piece) : E.Tuple :=
  p.1.map .value ++ aggregates.map (E.stateCell p.2)

variable {E} {keys aggregates inputs : List Symbol} {rs : List Record} {ps : List Piece}

/-! ### Single aggregates -/

/-- The rows of some records that a partial or a full aggregation folds. -/
theorem foldRows_records {f : String} {args args' : List Symbol}
    (hread : ∀ a ∈ args, a.ReadableFrom inputs)
    (hargs : Symbol.readAllFrom inputs args = .ok args') (rs : List Record) :
    E.foldRows ⟨f, args'⟩ (E.rowsAt inputs (rs.map Record.scope)) = E.stateOver f args rs := by
  unfold foldRows stateOver rowsAt
  rw [List.map_map, List.map_map]
  refine congrArg List.sum (List.map_congr_left fun r _ => ?_)
  exact congrArg (E.absorb f) (E.values_readAllFrom hread hargs r.scope)

/-- **The first tier gives the partial state of the records.** -/
theorem aggregate_rowsToPartial (h : Split.IsGroupable keys aggregates) {a : Symbol}
    (ha : a ∈ aggregates) {ag : Aggregation}
    (hag : Aggregation.ofCall inputs .rowsToPartial a = .ok ag) (rs : List Record) :
    E.aggregate .rowsToPartial (E.rowsAt inputs (rs.map Record.scope)) ag = E.stateCell rs a := by
  obtain ⟨f, args, rfl, -⟩ := Symbol.exists_call_of_isAggregate (h.aggregate a ha)
  obtain ⟨args', hargs, hag⟩ := except_bind_eq_ok.mp hag
  cases hag
  show Cell.state f _ = Cell.state f _
  rw [foldRows_records (fun b hb => h.readable_argument ha hb) hargs]

/-- **A single tier gives the value over the records.** -/
theorem aggregate_rowsToFinal (h : Split.IsGroupable keys aggregates) {a : Symbol}
    (ha : a ∈ aggregates) {ag : Aggregation}
    (hag : Aggregation.ofCall inputs .rowsToFinal a = .ok ag) (rs : List Record) :
    E.aggregate .rowsToFinal (E.rowsAt inputs (rs.map Record.scope)) ag =
      .value (E.value (E.groupScope rs) a) := by
  obtain ⟨f, args, rfl, hf⟩ := Symbol.exists_call_of_isAggregate (h.aggregate a ha)
  obtain ⟨args', hargs, hag⟩ := except_bind_eq_ok.mp hag
  cases hag
  rw [E.value_groupScope_aggregate hf]
  show Cell.value (E.finish f _) = _
  rw [foldRows_records (fun b hb => h.readable_argument ha hb) hargs]

/-- The column of an aggregate holds its partial state. -/
theorem getElem?_pieceRow_aggregate (h : Split.IsGroupable keys aggregates) {p : Piece}
    (hp : p.1.length = keys.length) {i : Nat} {b : Symbol} (hi : (keys ++ aggregates)[i]? = some b)
    (hb : b.isAggregate = true) : (E.pieceRow aggregates p)[i]? = some (E.stateCell p.2 b) := by
  have hle : keys.length ≤ i := by
    by_contra hlt
    rw [List.getElem?_append_left (by omega)] at hi
    have := (h.rowLevel b (List.mem_of_getElem? hi)).not_aggregate
    rw [this] at hb
    cases hb
  rw [List.getElem?_append_right hle] at hi
  rw [pieceRow, List.getElem?_append_right (by rwa [List.length_map, hp]), List.length_map, hp,
    List.getElem?_map, hi, Option.map_some]

/-- **The second tier gives the value over all records of the pieces.** -/
theorem aggregate_partialToFinal (h : Split.IsGroupable keys aggregates) {a : Symbol}
    (ha : a ∈ aggregates) {ag : Aggregation}
    (hag : Aggregation.ofCall (keys ++ aggregates) .partialToFinal a = .ok ag)
    (hps : ∀ p ∈ ps, p.1.length = keys.length) :
    E.aggregate .partialToFinal (ps.map (E.pieceRow aggregates)) ag =
      .value (E.value (E.groupScope (ps.map (·.2)).flatten) a) := by
  obtain ⟨f, args, rfl, hf⟩ := Symbol.exists_call_of_isAggregate (h.aggregate a ha)
  obtain ⟨t, ht, hag⟩ := except_bind_eq_ok.mp hag
  cases hag
  obtain ⟨i, hi⟩ := position?_isSome (List.mem_append_right keys ha) (Symbol.beq_refl _)
  have ht : t = .input i := by
    rcases Symbol.readFrom_eq_ok ht with ⟨j, hj, rfl⟩ | ⟨hnone, -⟩
    · rw [hi] at hj
      cases hj
      rfl
    · rw [hi] at hnone
      cases hnone
  subst ht
  obtain ⟨b, hb, hba⟩ := position?_eq_some hi
  obtain ⟨args', rfl, hargs⟩ := (Symbol.call_beq_iff f args b).mp (Symbol.beq_symm hba)
  have hstate : ∀ p ∈ ps, ((E.pieceRow aggregates p)[i]?).elim 0 (Cell.stateOf f) =
      E.stateOver f args p.2 := by
    intro p hp
    rw [getElem?_pieceRow_aggregate h (hps p hp) hb hf]
    show Cell.stateOf f (Cell.state f _) = _
    rw [Cell.stateOf, dif_pos rfl]
    exact E.stateOver_congr f ((Symbol.list_beq_iff _ _).mpr
      (hargs.flip.imp fun c d hcd => Symbol.beq_symm hcd)) p.2
  rw [E.value_groupScope_aggregate hf, stateOver_flatten]
  show Cell.value (E.finish f _) = _
  unfold mergeStates
  rw [List.map_map, List.map_map]
  exact congrArg (fun l => Cell.value (E.finish f (List.sum l))) (List.map_congr_left hstate)

/-- Several aggregates at once. -/
theorem map_aggregate {mode : AggregateMode} {ags : List Aggregation} {rows : List E.Tuple}
    {F : Symbol → E.Cell} (hags : aggregates.mapM (Aggregation.ofCall inputs mode) = .ok ags)
    (hcell : ∀ a ∈ aggregates, ∀ ag, Aggregation.ofCall inputs mode a = .ok ag →
      E.aggregate mode rows ag = F a) : ags.map (E.aggregate mode rows) = aggregates.map F := by
  have hall := (List.forall₂_and_left _ _).mpr ⟨fun a ha => ha, forall₂_of_except_mapM hags⟩
  refine (eq_map_of_forall₂ ?_)
  rw [List.forall₂_map_right_iff]
  exact hall.imp fun a ag h => hcell a h.1 ag h.2

end Engine

end ShardedQuery
