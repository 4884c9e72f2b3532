import ShardedQuery.Proofs.Planning.Trees
import ShardedQuery.Proofs.Planning.Windows

/-!
# From the base of a tree to the answer of a query

What holds of the rows of the base of a tree carries over to the result of the tree.

* `Engine.Answers` — **the reference result of a query** over its records or groups: those for which
  HAVING holds, sorted, cut, and laid out as the outputs.
* `Engine.Sourced` — what a base has to give: rows of all places, sorted as asked or else on the
  handler.
* `Engine.answers_of_build` — a tree over such a base answers its query.
-/

namespace ShardedQuery

namespace Engine

variable (E : Engine)

/-- Whether HAVING keeps a record or a group. -/
def kept (q : Select) (x : Scope) : Bool := q.having.all (E.holds x)

/-- **The reference result of a query** over its records or groups: a window of those that HAVING
keeps, in an order by ORDER BY, as rows of the outputs. -/
def Answers (q : Select) (w : Window) (items : List Scope) (rows : List Row) : Prop :=
  ∃ p : List Scope, p.Perm (items.filter (E.kept q)) ∧
    (p.Pairwise fun x y => E.leOf q.orderBy x y = true) ∧
    rows = (w.cut p).map fun x => E.values x q.outputs

/-- What the base of a tree has to give: rows of all places, sorted as asked, or unsorted but on the
handler. -/
inductive Sourced (env : Environment) (placement : Placement) (plan : Plan) (outputs : List Symbol)
    (items : List Scope) (request : Request) : Prop where
  | asAsked (arranged : E.Arranged placement plan outputs items request.order none)
      (order : plan.delivery.order = none → request.order = none)
      (window : plan.delivery.window = request.window)
  | onHandler (arranged : E.Arranged placement plan outputs items none none)
      (order : plan.delivery.order = none) (window : plan.delivery.window = .unbounded)
      (handler : env.onHandler plan.delivery.nodes = true)

variable {E} {env : Environment} {placement : Placement} {plan plan' : Plan}
  {inputs outputs : List Symbol} {items : List Scope} {request : Request} {w : Window}

theorem Arranged.weaken {o : Option OrderBy} {keep : Option Nat}
    (h : E.Arranged placement plan outputs items o none) :
    E.Arranged placement plan outputs items o keep where
  lays := h.lays.imp fun _ hspread => ⟨hspread.covers.weaken, hspread.sorted, hspread.single⟩
  width := h.width
  order := h.order
  unordered := h.unordered

/-- HAVING on top of a base. -/
theorem Sourced.filterStep {having : Symbol} (h : E.Sourced env placement plan inputs items request)
    (hread : having.ReadableFrom inputs)
    (hstep : Logical.filterStep inputs having plan = .ok plan') :
    E.Sourced env placement plan' inputs (items.filter fun x => E.holds x having) request := by
  cases h with
  | asAsked harranged horder hwindow =>
    obtain ⟨harranged', hdelivery⟩ := harranged.filterStep hread hstep
    exact .asAsked harranged' (by rw [hdelivery]; exact horder) (by rw [hdelivery]; exact hwindow)
  | onHandler harranged horder hwindow hhandler =>
    obtain ⟨harranged', hdelivery⟩ := harranged.filterStep hread hstep
    exact .onHandler harranged' (by rw [hdelivery]; exact horder) (by rw [hdelivery]; exact hwindow)
      (by rw [hdelivery]; exact hhandler)

/-- ORDER BY on top of a base that has been asked for the order. -/
theorem Sourced.orderStep {ob : OrderBy} {keep : Option Nat}
    (h : E.Sourced env placement plan inputs items ⟨⟨keep, 0⟩, some ob⟩)
    (hle : PreorderOn (E.leOf (some ob)) items) (hin : ∀ s ∈ inputs, s.ReadableFrom inputs)
    (hread : ∀ s ∈ ob.symbols, s.ReadableFrom inputs)
    (hstep : Logical.orderStep inputs ob ⟨keep, 0⟩ plan = .ok plan') :
    E.Arranged placement plan' inputs items (some ob) keep ∧
      (keep = none → plan'.delivery.window = .unbounded) := by
  cases h with
  | asAsked harranged horder hwindow =>
    cases hp : plan.delivery.order with
    | none => cases horder hp
    | some p =>
      simp only [Logical.orderStep, hp] at hstep
      cases hstep
      exact ⟨harranged.weaken, by rintro rfl; exact hwindow⟩
  | onHandler harranged horder hwindow hhandler =>
    obtain ⟨harranged', hwindow'⟩ := harranged.orderStep horder
      (length_le_one_of_onHandler hhandler) hle hin hread hstep
    exact ⟨harranged', fun _ => by rw [hwindow', hwindow]⟩

/-- A base that has not been asked for an order. -/
theorem Sourced.arranged {keep : Option Nat}
    (h : E.Sourced env placement plan inputs items ⟨⟨keep, 0⟩, none⟩) :
    E.Arranged placement plan inputs items none keep ∧
      (keep = none → plan.delivery.window = .unbounded) := by
  cases h with
  | asAsked harranged _ hwindow => exact ⟨harranged.weaken, by rintro rfl; exact hwindow⟩
  | onHandler harranged _ hwindow _ => exact ⟨harranged.weaken, fun _ => hwindow⟩

/-! ### The tree over a base -/

section Tree

variable {q : Select} {base : Logical} {p p' : Progress}
  (hbase : ∀ window plan p', base.build env ⟨window, q.orderBy⟩ p = .ok plan p' →
    E.Sourced env placement plan base.outputs items ⟨window, q.orderBy⟩)
  (hread : ∀ s ∈ q.symbols, s.ReadableFrom base.outputs)

include hbase hread

theorem sourced_having {window : Window}
    (h : (Logical.having q base).build env ⟨window, q.orderBy⟩ p = .ok plan p') :
    E.Sourced env placement plan base.outputs (items.filter (E.kept q)) ⟨window, q.orderBy⟩ := by
  unfold kept
  rcases Logical.build_having_eq_ok h with ⟨hq, h⟩ | ⟨having, source, hq, hsource, hfilter⟩
  · have hall : (items.filter fun x => Option.all (E.holds x) none) = items :=
      List.filter_eq_self.mpr fun _ _ => rfl
    rw [hq, hall]
    exact hbase window plan p' h
  · rw [hq]
    exact (hbase window source p' hsource).filterStep
      (hread having (Select.having_mem_symbols hq)) hfilter

variable (hin : ∀ s ∈ base.outputs, s.ReadableFrom base.outputs)
  (hle : PreorderOn (E.leOf q.orderBy) (items.filter (E.kept q)))

include hin hle

theorem arranged_ordered {keep : Option Nat}
    (h : (Logical.ordered q (Logical.having q base)).build env ⟨⟨keep, 0⟩, none⟩ p = .ok plan p') :
    E.Arranged placement plan base.outputs (items.filter (E.kept q)) q.orderBy keep ∧
      (keep = none → plan.delivery.window = .unbounded) := by
  rcases Logical.build_ordered_eq_ok h with ⟨hq, h⟩ | ⟨o, source, hq, hsource, horder⟩
  · have hsourced : E.Sourced env placement plan base.outputs (items.filter (E.kept q))
        ⟨⟨keep, 0⟩, q.orderBy⟩ := sourced_having hbase hread (by rw [hq]; exact h)
    rw [hq] at hsourced ⊢
    exact hsourced.arranged
  · have hsourced : E.Sourced env placement source base.outputs (items.filter (E.kept q))
        ⟨⟨keep, 0⟩, q.orderBy⟩ := sourced_having hbase hread (by rw [hq]; exact hsource)
    rw [hq] at hsourced hle ⊢
    rw [Logical.outputs_having] at horder
    exact hsourced.orderStep hle hin (fun s hs => hread s (Select.orderBy_mem_symbols hq hs)) horder

theorem prepared_limited
    (h : (Logical.limited q (Logical.ordered q (Logical.having q base))).build env {} p =
      .ok plan p') :
    ∃ w, env.window q.limit q.offset = .ok w ∧ w.IsSmall ∧
      E.Prepared env placement plan base.outputs (items.filter (E.kept q)) q.orderBy w := by
  rcases Logical.build_limited_eq_ok h with
    ⟨hlimit, hoffset, h⟩ | ⟨w, source, hwindow, hsource, hstep⟩
  · have hwindow : env.window q.limit q.offset = .ok .unbounded := by
      rw [hlimit, hoffset]
      exact env.window_none
    obtain ⟨harranged, hcut⟩ := arranged_ordered hbase hread hin hle
      (show (Logical.ordered q (Logical.having q base)).build env ⟨⟨none, 0⟩, none⟩ p = .ok plan p'
        from h)
    exact ⟨.unbounded, hwindow, Environment.window_isSmall hwindow,
      .pending harranged (hcut rfl)⟩
  · have hw := Environment.window_isSmall hwindow
    rw [Logical.outputs_ordered, Logical.outputs_having] at hstep
    exact ⟨w, hwindow, hw, (arranged_ordered hbase hread hin hle hsource).1.limitStep hle hw hstep⟩

/-- **A tree over a base answers its query**, if the base gives rows of all places. -/
theorem answers_of_build
    (h : (Logical.laidOut q (Logical.limited q (Logical.ordered q (Logical.having q base)))).build
      env {} p = .ok plan p') :
    ∃ w, env.window q.limit q.offset = .ok w ∧
      ∀ rows, E.Delivers placement plan rows → E.Answers q w items rows := by
  have houtputs : (Logical.limited q (Logical.ordered q (Logical.having q base))).outputs =
      base.outputs := by
    rw [Logical.outputs_limited, Logical.outputs_ordered, Logical.outputs_having]
  rcases Logical.build_laidOut_eq_ok h with ⟨heq, h⟩ | ⟨source, p₁, hsource, hstep⟩
  · rw [houtputs] at heq
    obtain ⟨w, hwindow, hw, hprepared⟩ := prepared_limited hbase hread hin hle h
    refine ⟨w, hwindow, fun rows hrows => ?_⟩
    obtain ⟨_, ⟨zs, hperm, hsorted, rfl⟩, rfl⟩ := hprepared.delivers hle hw hrows
    refine ⟨zs, hperm, hsorted, List.map_congr_left fun x _ => ?_⟩
    rw [values_eq, values_eq]
    refine (E.map_value_of_forall₂ (((Symbol.list_beq_iff _ _).mp heq).imp fun a b hab => ?_)).symm
    exact (E.value_congr x hab).symm
  · obtain ⟨w, hwindow, hw, hprepared⟩ := prepared_limited hbase hread hin hle hsource
    rw [houtputs] at hstep
    refine ⟨w, hwindow, fun rows hrows => ?_⟩
    obtain ⟨_, ⟨zs, hperm, hsorted, rfl⟩, rfl⟩ := (hprepared.evalStep hle hw
      (fun s hs => hread s (Select.output_mem_symbols hs)) hstep).delivers hle hw hrows
    exact ⟨zs, hperm, hsorted, rfl⟩

end Tree

end Engine

end ShardedQuery
