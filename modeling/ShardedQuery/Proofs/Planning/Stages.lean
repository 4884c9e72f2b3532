import ShardedQuery.Proofs.Rows.Trimming
import ShardedQuery.Proofs.Semantics.Emissions

/-!
# From the rows of a plan to its result

Between its base and its result a plan filters, sorts, cuts and lays out rows.  What the rows are at
each point is an invariant with the places that they are rows of: the records or the groups, of
which each node may have left out what the final cut cannot need.

* `Engine.Arranged` — the rows cover all places, and those of each node are sorted as asked.
* `Engine.Prepared` — the rows will be the result, by a cut that is made or is still to be made.
* `Engine.IsTop` — a window of all places, once sorted.
* `Arranged.filterStep`, `Arranged.orderStep`, `Arranged.limitStep`, `Prepared.evalStep` — each step
  of a planner keeps the invariant.
* `Prepared.delivers` — what the handler passes on is a window of all places, once sorted.
-/

namespace ShardedQuery

namespace Engine

variable (E : Engine)

/-! ### One projection on rows of places -/

section Steps

variable {E} {inputs outputs outs : List Symbol} {ys : List Scope} {out : List E.Tuple}

theorem step_eval (hproject : ∀ x, E.project outs (E.tuple inputs x) = E.tuple outputs x)
    (h : E.Step (.eval outs) (E.rowsAt inputs ys) out) : out = E.rowsAt outputs ys := by
  rw [show out = _ from h, rowsAt, rowsAt, List.map_map]
  exact List.map_congr_left fun x _ => hproject x

theorem step_topN (hproject : ∀ x, E.project outs (E.tuple inputs x) = E.tuple outputs x)
    {w : Window} (h : E.Step (.topN w outs) (E.rowsAt inputs ys) out) :
    out = E.rowsAt outputs (w.cut ys) := by
  rw [show out = _ from h, rowsAt, rowsAt, ← w.map_cut, List.map_map]
  exact List.map_congr_left fun x _ => hproject x

theorem step_orderedTopN (hproject : ∀ x, E.project outs (E.tuple inputs x) = E.tuple outputs x)
    {w : Window} {σ : SortSpec Symbol} {le : Scope → Scope → Bool}
    (hσ : ∀ x y, E.le σ (E.inRow (E.tuple inputs x)) (E.inRow (E.tuple inputs y)) = le x y)
    (hle : PreorderOn le ys) (h : E.Step (.orderedTopN w outs σ) (E.rowsAt inputs ys) out) :
    ∃ zs : List Scope, zs.Perm ys ∧ (zs.Pairwise fun a b => le a b = true) ∧
      out = E.rowsAt outputs (w.cut zs) := by
  obtain ⟨rows, hsorts, rfl⟩ := h
  obtain ⟨zs, rfl, hperm, hsorted⟩ := hsorts.exists_map (fun x _ y _ => hσ x y) hle
  exact ⟨zs, hperm, hsorted, step_topN hproject rfl⟩

theorem step_filter {query having : Symbol} {g : Granularity}
    (hvalue : ∀ x, E.value (E.inRow (E.tuple inputs x)) query = E.value x having)
    (h : E.Step (.filter query g) (E.rowsAt inputs ys) out) :
    out = E.rowsAt inputs (ys.filter fun x => E.holds x having) := by
  rw [show out = _ from h, rowsAt, rowsAt, List.filter_map]
  refine congrArg _ (List.filter_congr fun x _ => ?_)
  show decide _ = decide _
  rw [hvalue]

end Steps

/-! ### The invariants -/

/-- Batches of places: together they cover all places, each of them is sorted, and there is only one
if there is at most one node. -/
structure Spread (le : Scope → Scope → Bool) (keep : Option Nat) (items : List Scope) (nodes : Nat)
    (yss : List (List Scope)) : Prop where
  covers : Covers le keep items yss.flatten
  sorted : ∀ ys ∈ yss, ys.Pairwise fun a b => le a b = true
  single : nodes ≤ 1 → ∃ ys, yss = [ys]

/-- A window of all places, once sorted. -/
def IsTop (le : Scope → Scope → Bool) (w : Window) (items zs : List Scope) : Prop :=
  ∃ p : List Scope, p.Perm items ∧ (p.Pairwise fun a b => le a b = true) ∧ zs = w.cut p

/-- The rows of a plan cover all places, and those of each node are sorted.  The delivery names the
order, but for rows that need none. -/
structure Arranged (placement : Placement) (plan : Plan) (outputs : List Symbol)
    (items : List Scope) (o : Option OrderBy) (keep : Option Nat) : Prop where
  lays : E.Lays placement plan outputs
    (Spread (E.leOf o) keep items plan.delivery.nodes.length)
  width : plan.delivery.width = outputs.length
  order : ∀ p, plan.delivery.order = some p → ∃ ob, o = some ob ∧ ob.FoundIn outputs p
  unordered : plan.delivery.order = none → o = none ∨ plan.delivery.nodes.length ≤ 1

/-- The rows of a plan will be the result: either they still have to be cut, or they are on the
handler and are cut already. -/
inductive Prepared (env : Environment) (placement : Placement) (plan : Plan) (outputs : List Symbol)
    (items : List Scope) (o : Option OrderBy) (w : Window) : Prop where
  | pending (arranged : E.Arranged placement plan outputs items o w.reach)
      (window : plan.delivery.window = w)
  | exact (lays : E.Lays placement plan outputs fun yss =>
        ∃ zs, IsTop (E.leOf o) w items zs ∧ yss = [zs])
      (window : plan.delivery.window = .unbounded)
      (handler : env.onHandler plan.delivery.nodes = true)

theorem pairwise_leOf_none (ys : List Scope) :
    ys.Pairwise fun a b => E.leOf none a b = true :=
  List.pairwise_of_forall fun _ _ => rfl

theorem length_le_one_of_onHandler {env : Environment} {nodes : List String}
    (h : env.onHandler nodes = true) : nodes.length ≤ 1 := by
  rcases nodes_of_executesOnHandler h with rfl | rfl
  · exact Nat.zero_le 1
  · exact Nat.le_refl 1

variable {E} {env : Environment} {placement : Placement} {plan plan' : Plan}
  {inputs outputs : List Symbol} {items : List Scope} {o : Option OrderBy} {keep : Option Nat}
  {w : Window}

/-- A window of the sorted rows that cover all places is one of all places. -/
theorem isTop_of_covers (hle : PreorderOn (E.leOf o) items) (hw : w.IsSmall) {ys zs : List Scope}
    (hcovers : Covers (E.leOf o) w.reach items ys) (hperm : zs.Perm ys)
    (hsorted : zs.Pairwise fun a b => E.leOf o a b = true) :
    IsTop (E.leOf o) w items (w.cut zs) := by
  obtain ⟨p, hp, hpsorted, hfirst⟩ := hcovers.exists_sorted hle hperm hsorted
  exact ⟨p, hp, hpsorted, (Window.cut_eq_of_first_eq hw hfirst).symm⟩

namespace Spread

variable {le : Scope → Scope → Bool} {nodes : Nat} {yss zss : List (List Scope)}

theorem mem (h : Spread le keep items nodes yss) {ys : List Scope} (hys : ys ∈ yss) {y : Scope}
    (hy : y ∈ ys) : y ∈ items :=
  h.covers.mem (List.mem_flatten.mpr ⟨ys, hys, hy⟩)

/-- Batches that are made smaller and sorted, each so that it still covers what it was. -/
theorem of_forall₂ (hcovers : Covers le keep items yss.flatten)
    (hsingle : nodes ≤ 1 → ∃ ys, yss = [ys]) (hle : PreorderOn le items)
    (hall : List.Forall₂ (fun ys zs => Covers le keep ys zs ∧
      zs.Pairwise fun a b => le a b = true) yss zss) : Spread le keep items nodes zss := by
  refine ⟨hcovers.trans ?_ hle, ?_, fun hn => ?_⟩
  · clear hsingle hcovers
    induction hall with
    | nil => exact covers_of_perm (List.Perm.refl _)
    | cons hyz _ ih =>
      rw [List.flatten_cons, List.flatten_cons]
      exact hyz.1.append ih
  · clear hsingle hcovers
    induction hall with
    | nil => intro zs hzs; cases hzs
    | cons hyz _ ih =>
      intro zs hzs
      rcases List.mem_cons.mp hzs with rfl | hzs
      · exact hyz.2
      · exact ih zs hzs
  · obtain ⟨ys, rfl⟩ := hsingle hn
    cases hall with
    | cons _ hnil =>
      cases hnil
      exact ⟨_, rfl⟩

end Spread

/-! ### Projections of a planner -/

theorem length_of_readAllFrom {as bs : List Symbol} (h : Symbol.readAllFrom inputs as = .ok bs) :
    bs.length = as.length := by
  rw [Symbol.readAllFrom_eq] at h
  exact (forall₂_of_except_mapM h).length_eq.symm

theorem arrange_eval {p : Projection}
    (h : Projection.arrange inputs none .unbounded outputs = .ok p) :
    ∃ outs, Symbol.readAllFrom inputs outputs = .ok outs ∧ p = .eval outs := by
  obtain ⟨outs, houts, h⟩ := except_bind_eq_ok.mp h
  cases h
  exact ⟨outs, houts, rfl⟩

theorem arrange_orderedTopN {ob : OrderBy} {window : Window} {p : Projection}
    (h : Projection.arrange inputs (some ob) window outputs = .ok p) :
    ∃ outs keys, Symbol.readAllFrom inputs outputs = .ok outs ∧
      Symbol.readAllFrom inputs ob.symbols = .ok keys ∧
      p = .orderedTopN window outs (ob.withKeys keys) := by
  obtain ⟨outs, houts, h⟩ := except_bind_eq_ok.mp h
  obtain ⟨keys, hkeys, h⟩ := except_bind_eq_ok.mp h
  cases h
  exact ⟨outs, keys, houts, hkeys, rfl⟩

/-- Rows that are laid out anew are rows of the same places. -/
theorem Lays.eval {P : List (List Scope) → Prop} {order : Option ColumnOrder} {outs : List Symbol}
    (h : E.Lays placement plan inputs P)
    (hproject : ∀ x, E.project outs (E.tuple inputs x) = E.tuple outputs x)
    (hadd : plan.addProjection (.eval outs) none order = .ok plan') :
    E.Lays placement plan' outputs P := by
  refine (h.addProjection hadd rfl Eq fun yss _ ys _ out hout =>
    ⟨ys, step_eval hproject hout, rfl⟩).imp fun zss hzss => ?_
  obtain ⟨yss, hP, heq⟩ := hzss
  rw [List.forall₂_eq_eq_eq] at heq
  rwa [← heq]

/-! ### The steps -/

/-- HAVING keeps the places for which it holds. -/
theorem Arranged.filterStep {having : Symbol}
    (h : E.Arranged placement plan inputs items o none) (hread : having.ReadableFrom inputs)
    (hstep : Logical.filterStep inputs having plan = .ok plan') :
    E.Arranged placement plan' inputs (items.filter fun x => E.holds x having) o none ∧
      plan'.delivery = plan.delivery := by
  obtain ⟨p, hp, hadd⟩ := except_bind_eq_ok.mp hstep
  obtain ⟨query, hquery, hp⟩ := except_bind_eq_ok.mp hp
  cases hp
  have hdelivery : plan'.delivery = plan.delivery := Plan.delivery_addProjection hadd
  refine ⟨⟨?_, ?_, ?_, ?_⟩, hdelivery⟩
  · rw [hdelivery]
    refine (h.lays.addProjection hadd trivial
      (fun ys zs => zs = ys.filter fun x => E.holds x having)
      fun yss _ ys _ out hout =>
        ⟨_, step_filter (fun x => E.value_readFrom hread hquery x) hout, rfl⟩).imp
          fun zss hzss => ?_
    obtain ⟨yss, hspread, hfilter⟩ := hzss
    have hmap : zss = yss.map (List.filter fun x => E.holds x having) := eq_map_of_forall₂ hfilter
    refine ⟨?_, ?_, fun hn => ?_⟩
    · rw [hmap, ← List.filter_flatten]
      exact covers_of_perm (hspread.covers.perm_of_none.filter _)
    · intro zs hzs
      rw [hmap] at hzs
      obtain ⟨ys, hys, rfl⟩ := List.mem_map.mp hzs
      exact (hspread.sorted ys hys).filter _
    · obtain ⟨ys, rfl⟩ := hspread.single hn
      exact ⟨_, hmap⟩
  · rw [hdelivery]
    exact h.width
  · rw [hdelivery]
    exact h.order
  · rw [hdelivery]
    exact h.unordered

/-- Rows that are sorted where they are, of which only as many are kept as the cut may need. -/
theorem lays_orderedTopN {ob : OrderBy} {outs keys : List Symbol} {nodes : Nat}
    {window : Option Window} {order : Option ColumnOrder}
    (h : E.Lays placement plan inputs (Spread (E.leOf none) none items nodes))
    (hle : PreorderOn (E.leOf (some ob)) items)
    (hproject : ∀ x, E.project outs (E.tuple inputs x) = E.tuple outputs x)
    (hread : ∀ s ∈ ob.symbols, s.ReadableFrom inputs)
    (hkeys : Symbol.readAllFrom inputs ob.symbols = .ok keys)
    (hadd : plan.addProjection (.orderedTopN ⟨keep, 0⟩ outs (ob.withKeys keys)) window order =
      .ok plan') :
    E.Lays placement plan' outputs (Spread (E.leOf (some ob)) keep items nodes) := by
  refine (h.addProjection hadd rfl (fun ys zs => Covers (E.leOf (some ob)) keep ys zs ∧
    zs.Pairwise fun a b => E.leOf (some ob) a b = true) ?_).imp fun zss hzss => ?_
  · intro yss hspread ys hys out hout
    obtain ⟨zs, hperm, hsorted, rfl⟩ := step_orderedTopN hproject (E.le_readAllFrom hread hkeys)
      (hle.mono fun y hy => hspread.mem hys hy) hout
    exact ⟨_, rfl, (covers_first hsorted).perm_left hperm,
      hsorted.sublist (Window.first_sublist keep zs)⟩
  · obtain ⟨yss, hspread, hzss⟩ := hzss
    exact Spread.of_forall₂ (covers_of_perm hspread.covers.perm_of_none) hspread.single hle hzss

/-- Rows on the handler are sorted there, and only as many kept as the cut may need. -/
theorem Arranged.orderStep {ob : OrderBy}
    (h : E.Arranged placement plan inputs items none none) (hnone : plan.delivery.order = none)
    (hnodes : plan.delivery.nodes.length ≤ 1) (hle : PreorderOn (E.leOf (some ob)) items)
    (hin : ∀ s ∈ inputs, s.ReadableFrom inputs) (hread : ∀ s ∈ ob.symbols, s.ReadableFrom inputs)
    (hstep : Logical.orderStep inputs ob ⟨keep, 0⟩ plan = .ok plan') :
    E.Arranged placement plan' inputs items (some ob) keep ∧
      plan'.delivery.window = plan.delivery.window := by
  simp only [Logical.orderStep, hnone] at hstep
  obtain ⟨p, hp, hadd⟩ := except_bind_eq_ok.mp hstep
  obtain ⟨outs, keys, houts, hkeys, rfl⟩ := arrange_orderedTopN hp
  have hdelivery := Plan.delivery_addProjection hadd
  refine ⟨⟨?_, ?_, ?_, ?_⟩, by rw [hdelivery]; rfl⟩
  · rw [hdelivery]
    exact lays_orderedTopN h.lays hle (E.project_readAllFrom hin houts) hread hkeys hadd
  · rw [hdelivery]
    exact length_of_readAllFrom houts
  · intro p hp
    rw [hdelivery] at hp
    have hp : (ColumnOrder.ofOrderBy? ob inputs).or plan.delivery.order = some p := hp
    rw [hnone, Option.or_none] at hp
    exact ⟨ob, rfl, ColumnOrder.foundIn_of_ofOrderBy? hp⟩
  · intro _
    rw [hdelivery]
    exact .inr hnodes

/-- On the handler the cut is made.  Elsewhere each node cuts as far as the cut reaches, and the cut
is left to the consumer. -/
theorem Arranged.limitStep (h : E.Arranged placement plan inputs items o w.reach)
    (hle : PreorderOn (E.leOf o) items) (hw : w.IsSmall)
    (hstep : Logical.limitStep env inputs w plan = .ok plan') :
    E.Prepared env placement plan' inputs items o w := by
  unfold Logical.limitStep at hstep
  split at hstep
  · rename_i hhandler
    have hdelivery := Plan.delivery_addProjection hstep
    refine .exact ?_ (by rw [hdelivery]; rfl) (by rw [hdelivery]; exact hhandler)
    refine (h.lays.addProjection hstep rfl (fun ys zs => zs = w.cut ys) fun yss _ ys _ out hout =>
      ⟨_, step_topN (E.project_inputColumns inputs) hout, rfl⟩).imp fun zss hzss => ?_
    obtain ⟨yss, hspread, hcut⟩ := hzss
    obtain ⟨ys, rfl⟩ := hspread.single (length_le_one_of_onHandler hhandler)
    cases hcut with
    | cons hzs hnil =>
      cases hnil
      have hcovers := hspread.covers
      rw [List.flatten_cons, List.flatten_nil, List.append_nil] at hcovers
      rw [hzs]
      exact ⟨_, isTop_of_covers hle hw hcovers (List.Perm.refl ys)
        (hspread.sorted ys (List.mem_singleton.mpr rfl)), rfl⟩
  · have hdelivery := Plan.delivery_addProjection hstep
    refine .pending ⟨?_, ?_, ?_, ?_⟩ (by rw [hdelivery]; rfl)
    · rw [hdelivery]
      refine (h.lays.addProjection hstep rfl (fun ys zs => zs = Window.first w.reach ys)
        fun yss _ ys _ out hout =>
          ⟨_, step_topN (E.project_inputColumns inputs) hout, rfl⟩).imp fun zss hzss => ?_
      obtain ⟨yss, hspread, hfirst⟩ := hzss
      refine Spread.of_forall₂ hspread.covers hspread.single hle
        (((List.forall₂_and_left _ _).mpr ⟨hspread.sorted, hfirst⟩).imp fun ys zs hys => ?_)
      rw [hys.2]
      exact ⟨covers_first hys.1, hys.1.sublist (Window.first_sublist _ ys)⟩
    · rw [hdelivery]
      show (Symbol.inputColumns inputs.length).length = _
      rw [Symbol.inputColumns, List.length_map, List.length_range]
    · rw [hdelivery]
      exact h.order
    · rw [hdelivery]
      exact h.unordered

/-- The rows of all nodes, merged on the handler, sorted and cut there. -/
theorem lays_mergeSorted {ob : OrderBy} {outs : List Symbol} {σ : SortSpec Symbol}
    {nodes width : Nat} {maxRows : Option Nat} {q q' : Progress}
    (h : E.Lays placement plan inputs (Spread (E.leOf (some ob)) w.reach items nodes))
    (hle : PreorderOn (E.leOf (some ob)) items) (hw : w.IsSmall)
    (hproject : ∀ x, E.project outs (E.tuple inputs x) = E.tuple outputs x)
    (hσ : ∀ x y,
      E.le σ (E.inRow (E.tuple inputs x)) (E.inRow (E.tuple inputs y)) = E.le ob.spec x y)
    (hmerge : env.mergeOnHandler plan (.orderedTopN w outs σ) width maxRows q = .ok plan' q') :
    E.Lays placement plan' outputs
        (fun yss => ∃ zs, IsTop (E.leOf (some ob)) w items zs ∧ yss = [zs]) ∧
      plan'.delivery = ⟨[env.handler], none, .unbounded, width, maxRows⟩ := by
  obtain ⟨phase, hphase, rfl⟩ := mergeOnHandler_eq hmerge
  refine ⟨?_, rfl⟩
  refine (h.merge hphase (fun ys zs => ∃ us : List Scope, us.Perm ys ∧
    (us.Pairwise fun a b => E.leOf (some ob) a b = true) ∧ zs = w.cut us) ?_).imp fun zss hzss => ?_
  · intro yss hspread arrived harrived out hout
    have hmem : ∀ y ∈ arrived.flatten, y ∈ items := fun y hy =>
      hspread.covers.mem (harrived.flatten.mem_iff.mp hy)
    obtain ⟨us, hperm, hsorted, rfl⟩ := step_orderedTopN hproject hσ (hle.mono hmem) hout
    exact ⟨_, rfl, us, hperm, hsorted, rfl⟩
  · obtain ⟨yss, arrived, _, hspread, harrived, ⟨us, hperm, hsorted, rfl⟩, rfl⟩ := hzss
    exact ⟨_, isTop_of_covers hle hw hspread.covers (hperm.trans harrived.flatten) hsorted, rfl⟩

/-! ### Rows laid out as the outputs -/

section Outputs

variable {outs : List Symbol} (hwidth : outs.length = outputs.length)
  (hproject : ∀ x, E.project outs (E.tuple inputs x) = E.tuple outputs x)

include hwidth hproject

/-- Rows in no order have none to lose. -/
theorem Prepared.eval_unordered (h : E.Prepared env placement plan inputs items o w)
    (hnone : plan.delivery.order = none)
    (hadd : plan.addProjection (.eval outs) none none = .ok plan') :
    E.Prepared env placement plan' outputs items o w := by
  have hdelivery := Plan.delivery_addProjection hadd
  cases h with
  | pending harranged hwindow =>
    refine .pending ⟨?_, ?_, fun p hp => ?_, fun _ => ?_⟩ ?_
    · rw [hdelivery]
      exact harranged.lays.eval hproject hadd
    · rw [hdelivery]
      exact hwidth
    · rw [hdelivery] at hp
      exact nomatch hnone.symm.trans hp
    · rw [hdelivery]
      exact harranged.unordered hnone
    · rw [hdelivery]
      exact hwindow
  | exact hlays hwindow hhandler =>
    exact .exact (hlays.eval hproject hadd) (by rw [hdelivery]; exact hwindow)
      (by rw [hdelivery]; exact hhandler)

/-- Rows whose order is by columns that are among the outputs keep it. -/
theorem Prepared.eval_remapped {c c' : ColumnOrder}
    (h : E.Prepared env placement plan inputs items o w) (horder : plan.delivery.order = some c)
    (hremap : c.remap? inputs outputs = some c')
    (hadd : plan.addProjection (.eval outs) none (some c') = .ok plan') :
    E.Prepared env placement plan' outputs items o w := by
  have hdelivery := Plan.delivery_addProjection hadd
  cases h with
  | pending harranged hwindow =>
    obtain ⟨ob, rfl, hfound⟩ := harranged.order c horder
    refine .pending ⟨?_, ?_, fun p hp => ?_, fun hnone => ?_⟩ ?_
    · rw [hdelivery]
      exact harranged.lays.eval hproject hadd
    · rw [hdelivery]
      exact hwidth
    · rw [hdelivery] at hp
      cases hp
      exact ⟨ob, rfl, ColumnOrder.foundIn_of_remap? hfound hremap⟩
    · rw [hdelivery] at hnone
      cases hnone
    · rw [hdelivery]
      exact hwindow
  | exact hlays hwindow hhandler =>
    exact .exact (hlays.eval hproject hadd) (by rw [hdelivery]; exact hwindow)
      (by rw [hdelivery]; exact hhandler)

/-- Rows on the handler are in their final order, which need not be named any more. -/
theorem Prepared.eval_cleared {added : Plan} (h : E.Prepared env placement plan inputs items o w)
    (hhandler : env.onHandler plan.delivery.nodes = true)
    (hadd : plan.addProjection (.eval outs) none none = .ok added) :
    E.Prepared env placement added.clearOrder outputs items o w := by
  have hdelivery := Plan.delivery_addProjection hadd
  unfold Plan.clearOrder
  cases h with
  | pending harranged hwindow =>
    refine .pending ⟨?_, ?_, ?_, ?_⟩ ?_ <;> rw [Plan.delivery_withDelivery, hdelivery]
    · exact (harranged.lays.eval hproject hadd).withDelivery _
    · exact hwidth
    · intro _ hnone
      cases hnone
    · exact fun _ => .inr (length_le_one_of_onHandler hhandler)
    · exact hwindow
  | exact hlays hwindow _ =>
    refine .exact ((hlays.eval hproject hadd).withDelivery _) ?_ ?_ <;>
      rw [Plan.delivery_withDelivery, hdelivery]
    · exact hwindow
    · exact hhandler

omit hwidth in
/-- Rows on several nodes are merged, sorted and cut before their columns are lost. -/
theorem Prepared.eval_merged {c : ColumnOrder} {merged : Plan} {q q' : Progress}
    (h : E.Prepared env placement plan inputs items o w)
    (hle : PreorderOn (E.leOf o) items) (hw : w.IsSmall) (horder : plan.delivery.order = some c)
    (hnothandler : ¬ env.onHandler plan.delivery.nodes = true)
    (hmerge : env.mergeOnHandler plan (.orderedTopN plan.delivery.window plan.delivery.columns
      { c with keys := c.inputColumns }) plan.delivery.width none q = .ok merged q')
    (hadd : merged.addProjection (.eval outs) none none = .ok plan') :
    E.Prepared env placement plan' outputs items o w := by
  cases h with
  | pending harranged hwindow =>
    obtain ⟨ob, rfl, hfound⟩ := harranged.order c horder
    rw [hwindow, Delivery.columns, harranged.width] at hmerge
    obtain ⟨hlays, hmerged⟩ := lays_mergeSorted harranged.lays hle hw
      (E.project_inputColumns inputs) (E.le_inputColumns hfound) hmerge
    have hdelivery := Plan.delivery_addProjection hadd
    rw [hmerged] at hdelivery
    refine .exact (hlays.eval hproject hadd) ?_ ?_ <;> rw [hdelivery]
    · rfl
    · exact beq_self_eq_true env.handler
  | exact _ _ hhandler => exact absurd hhandler hnothandler

end Outputs

/-- **Rows laid out as the outputs are still prepared**, whether they keep their order or not. -/
theorem Prepared.evalStep {q q' : Progress} (h : E.Prepared env placement plan inputs items o w)
    (hle : PreorderOn (E.leOf o) items) (hw : w.IsSmall)
    (hread : ∀ s ∈ outputs, s.ReadableFrom inputs)
    (hstep : Logical.evalStep env inputs outputs plan q = .ok plan' q') :
    E.Prepared env placement plan' outputs items o w := by
  obtain ⟨eval, _, harrange, hstep⟩ := Planning.bind_eq_ok.mp hstep
  obtain ⟨outs, houts, rfl⟩ := arrange_eval (Planning.ofExcept_eq_ok.mp harrange).1
  have hproject := E.project_readAllFrom hread houts
  have hwidth : outs.length = outputs.length := length_of_readAllFrom houts
  cases horder : plan.delivery.order with
  | none =>
    simp only [horder] at hstep
    exact h.eval_unordered hwidth hproject horder (Planning.ofExcept_eq_ok.mp hstep).1
  | some c =>
    cases hremap : c.remap? inputs outputs with
    | some c' =>
      simp only [horder, hremap] at hstep
      exact h.eval_remapped hwidth hproject horder hremap (Planning.ofExcept_eq_ok.mp hstep).1
    | none =>
      simp only [horder, hremap] at hstep
      split at hstep
      · rename_i hhandler
        obtain ⟨added, hadd, hclear⟩ := except_bind_eq_ok.mp (Planning.ofExcept_eq_ok.mp hstep).1
        cases hclear
        exact h.eval_cleared hwidth hproject hhandler hadd
      · rename_i hnothandler
        obtain ⟨merged, _, hmerge, hstep⟩ := Planning.bind_eq_ok.mp hstep
        exact h.eval_merged hproject hle hw horder hnothandler hmerge
          (Planning.ofExcept_eq_ok.mp hstep).1

/-! ### What the handler passes on -/

/-- A window of all places, once sorted, as rows of values. -/
def Top (E : Engine) (o : Option OrderBy) (w : Window) (items : List Scope) (outputs : List Symbol)
    (rows : List Row) : Prop :=
  ∃ zs, IsTop (E.leOf o) w items zs ∧ rows = zs.map fun x => E.values x outputs

theorem finish_of_length_le_one {d : Delivery} (h : d.nodes.length ≤ 1) (rows : List Row) :
    d.finish rows = d.window.cut rows := by
  unfold Delivery.finish
  cases d.order with
  | none => rfl
  | some p => simp only [if_neg (Nat.not_lt.mpr h)]

/-- The rows of an arranged plan as they arrive are in order after the handler has put them in
order. -/
theorem Arranged.finish (h : E.Arranged placement plan outputs items o keep)
    (hle : PreorderOn (E.leOf o) items) {yss arrived : List (List Scope)}
    (hspread : Spread (E.leOf o) keep items plan.delivery.nodes.length yss)
    (harrived : arrived.Perm yss) :
    ∃ zs : List Scope, zs.Perm yss.flatten ∧ (zs.Pairwise fun a b => E.leOf o a b = true) ∧
      plan.delivery.finish (arrived.flatten.map fun x => E.values x outputs) =
        plan.delivery.window.cut (zs.map fun x => E.values x outputs) := by
  by_cases hnodes : plan.delivery.nodes.length ≤ 1
  · obtain ⟨ys, rfl⟩ := hspread.single hnodes
    rw [List.perm_singleton.mp harrived]
    refine ⟨_, List.Perm.refl _, ?_, finish_of_length_le_one hnodes _⟩
    rw [List.flatten_cons, List.flatten_nil, List.append_nil]
    exact hspread.sorted ys (List.mem_singleton.mpr rfl)
  cases horder : plan.delivery.order with
  | none =>
    rcases h.unordered horder with rfl | hfew
    · refine ⟨_, harrived.flatten, E.pairwise_leOf_none _, ?_⟩
      rw [Delivery.finish, horder]
    · exact absurd hfew hnodes
  | some p =>
    obtain ⟨ob, rfl, hfound⟩ := h.order p horder
    have hmem : ∀ y ∈ arrived.flatten, y ∈ items := fun y hy =>
      hspread.covers.mem (harrived.flatten.mem_iff.mp hy)
    obtain ⟨zs, hzs, hperm, hsorted⟩ :=
      (sorts_mergeSort (fun a b => (p.compareRows a b).isLE) _).exists_map
        (fun x _ y _ => E.compareRows_of_foundIn hfound x y) (hle.mono hmem)
    refine ⟨zs, hperm.trans harrived.flatten, hsorted, ?_⟩
    rw [Delivery.finish, horder]
    show plan.delivery.window.cut (if _ then p.sortRows _ else _) = _
    rw [if_pos (by omega), ColumnOrder.sortRows, hzs]

/-- **What the handler passes on of prepared rows is a window of all places, once sorted.** -/
theorem Prepared.delivers (h : E.Prepared env placement plan outputs items o w)
    (hle : PreorderOn (E.leOf o) items) (hw : w.IsSmall) {rows : List Row}
    (hrows : E.Delivers placement plan rows) : E.Top o w items outputs rows := by
  obtain ⟨bs, batches, hbs, hbatches, rfl⟩ := hrows
  have hliteral : ∀ yss : List (List Scope),
      (yss.map (E.rowsAt outputs)).flatten.map (·.map Cell.literal) =
        yss.flatten.map fun x => E.values x outputs := by
    intro yss
    unfold rowsAt
    rw [← List.map_flatten, List.map_map]
    exact List.map_congr_left fun x _ => E.literal_tuple outputs x
  cases h with
  | exact hlays hwindow hhandler =>
    obtain ⟨_, rfl, zs, hzs, rfl⟩ := hlays bs hbs
    rw [List.perm_singleton.mp hbatches]
    refine ⟨zs, hzs, ?_⟩
    rw [finish_of_length_le_one (length_le_one_of_onHandler hhandler), hwindow,
      Window.cut_unbounded]
    have := hliteral [zs]
    rwa [List.flatten_cons, List.flatten_nil, List.append_nil] at this
  | pending harranged hwindow =>
    obtain ⟨yss, rfl, hspread⟩ := harranged.lays bs hbs
    obtain ⟨arrived, harrived, rfl⟩ := exists_perm_of_perm_map hbatches
    obtain ⟨zs, hperm, hsorted, hfinish⟩ := harranged.finish hle hspread harrived
    refine ⟨_, isTop_of_covers hle hw hspread.covers hperm hsorted, ?_⟩
    rw [hliteral, hfinish, hwindow, Window.map_cut]

end Engine

end ShardedQuery
