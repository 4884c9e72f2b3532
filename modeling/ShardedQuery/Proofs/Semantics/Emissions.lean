import ShardedQuery.Planning.Build
import ShardedQuery.Proofs.Semantics.Orders

/-!
# Plans step by step

A planner builds a plan by adding projections and merges to it.  What the larger plan emits comes
from what the smaller one does by one more step.

* `Engine.emits_addProjection` — one more projection, on every batch.
* `Engine.emits_merge` — a merge, on the batches as they arrive.
* `Engine.Lays` — a plan lays out rows of some symbols at places that have a property.
* `Engine.Lays.addProjection` — one more projection lays out rows anew.
-/

namespace ShardedQuery

/-- A projection that may be left to the whole stream of a node, however the projections before it
run: it is coarser than a shard, or it treats each row by itself. -/
def Projection.IsJoinable : Projection → Prop
  | .filter .. => True
  | p => p.perShard = false

namespace Plan

/-- What a plan reads: by which routing, and with which filter. -/
def reads : Plan → Routing × WhereClause
  | .collect phase _ => (phase.routing, phase.filter)
  | .merge source _ _ => source.reads
  | .count phase _ => (phase.routing, phase.filter)

theorem readNodes_eq (plan : Plan) : plan.readNodes = plan.reads.1.nodes := by
  induction plan with
  | collect phase d => rfl
  | merge source phase d ih => exact ih
  | count phase d => rfl

variable {plan plan' : Plan} {p : Projection} {window : Option Window} {order : Option ColumnOrder}

theorem delivery_addProjection (h : plan.addProjection p window order = .ok plan') :
    plan'.delivery = plan.delivery.project p window order := by
  cases plan <;> cases h <;> rfl

theorem reads_addProjection (h : plan.addProjection p window order = .ok plan') :
    plan'.reads = plan.reads := by
  cases plan <;> cases h <;> rfl

@[simp] theorem delivery_withDelivery (plan : Plan) (d : Delivery) :
    (plan.withDelivery d).delivery = d := by
  cases plan <;> rfl

@[simp] theorem reads_withDelivery (plan : Plan) (d : Delivery) :
    (plan.withDelivery d).reads = plan.reads := by
  cases plan <;> rfl

end Plan

namespace Engine

variable (E : Engine) {placement : Placement} {plan plan' : Plan}

/-! ### One more projection -/

theorem runs_single {p : Projection} {xs ys : List E.Tuple} (h : E.Runs [p] [xs] ys) :
    E.Step p xs ys := by
  rw [Runs] at h
  split at h
  · obtain ⟨streams, hstep, rfl⟩ := h
    cases hstep with
    | cons hstep hnil =>
      cases hnil
      rwa [List.flatten_cons, List.flatten_nil, List.append_nil]
  · obtain ⟨zs, hstep, rfl⟩ := h
    rwa [List.flatten_cons, List.flatten_nil, List.append_nil] at hstep ⊢

/-- A filter of the shards is a filter of all their rows. -/
theorem flatten_of_filters {query : Symbol} {g : Granularity}
    {streams streams' : List (List E.Tuple)}
    (h : List.Forall₂ (E.Step (.filter query g)) streams streams') :
    E.Step (.filter query g) streams.flatten streams'.flatten := by
  induction h with
  | nil => rfl
  | cons hstep _ ih =>
    change _ = List.filter _ _ at hstep ih
    show _ = List.filter _ _
    rw [List.flatten_cons, List.flatten_cons, List.filter_append, hstep, ih]

/-- The last projection works on what the others make of the streams. -/
theorem runs_concat {p : Projection} (hp : p.IsJoinable) {ps : List Projection}
    {streams : List (List E.Tuple)} {ys : List E.Tuple} (h : E.Runs (ps ++ [p]) streams ys) :
    ∃ zs, E.Runs ps streams zs ∧ E.Step p zs ys := by
  induction ps generalizing streams with
  | nil =>
    refine ⟨streams.flatten, rfl, ?_⟩
    rw [List.nil_append, Runs] at h
    split at h
    · rename_i hshard
      obtain ⟨streams', hstep, rfl⟩ := h
      cases p with
      | filter query g => exact E.flatten_of_filters hstep
      | aggregation | group => exact absurd hshard (by rw [show _ = false from hp]; simp)
      | topN | orderedTopN | eval => cases hshard
    · obtain ⟨zs, hstep, rfl⟩ := h
      rwa [List.flatten_cons, List.flatten_nil, List.append_nil]
  | cons q qs ih =>
    rw [List.cons_append, Runs] at h
    split at h
    · rename_i hq
      obtain ⟨streams', hstep, h⟩ := h
      obtain ⟨zs, hzs, hlast⟩ := ih h
      exact ⟨zs, by rw [Runs, if_pos hq]; exact ⟨streams', hstep, hzs⟩, hlast⟩
    · rename_i hq
      obtain ⟨us, hstep, h⟩ := h
      obtain ⟨zs, hzs, hlast⟩ := ih h
      exact ⟨zs, by rw [Runs, if_neg hq]; exact ⟨us, hstep, hzs⟩, hlast⟩

theorem reads_concat {phase : CollectPhase} {p : Projection} (hp : p.IsJoinable)
    {shards : List (List Record)} {ys : List E.Tuple}
    (h : E.Reads { phase with projections := phase.projections ++ [p] } shards ys) :
    ∃ zs, E.Reads phase shards zs ∧ E.Step p zs ys := by
  unfold Reads at h ⊢
  cases ho : phase.orderBy with
  | none =>
    simp only [ho] at h ⊢
    exact E.runs_concat hp h
  | some o =>
    simp only [ho] at h ⊢
    obtain ⟨rs, hrs, h⟩ := h
    obtain ⟨zs, hzs, hlast⟩ := E.runs_concat hp h
    exact ⟨zs, ⟨rs, hrs, hzs⟩, hlast⟩

/-- A relation in two steps, element by element. -/
theorem forall₂_split {α β γ : Type} {R : α → β → Prop} {S : β → γ → Prop} {xs : List α}
    {zs : List γ} (h : List.Forall₂ (fun x z => ∃ y, R x y ∧ S y z) xs zs) :
    ∃ ys, List.Forall₂ R xs ys ∧ List.Forall₂ S ys zs := by
  induction h with
  | nil => exact ⟨[], .nil, .nil⟩
  | cons hxz _ ih =>
    obtain ⟨y, hR, hS⟩ := hxz
    obtain ⟨ys, hRs, hSs⟩ := ih
    exact ⟨y :: ys, .cons hR hRs, .cons hS hSs⟩

/-- **One more projection works on every batch.** -/
theorem emits_addProjection {p : Projection} {window : Option Window} {order : Option ColumnOrder}
    (h : plan.addProjection p window order = .ok plan') (hp : p.IsJoinable)
    {bs' : List (List E.Tuple)} (hbs' : E.Emits placement plan' bs') :
    ∃ bs, E.Emits placement plan bs ∧ List.Forall₂ (E.Step p) bs bs' := by
  cases plan with
  | collect phase d =>
    cases h
    exact forall₂_split (hbs'.imp fun shards ys => E.reads_concat hp)
  | merge source phase d =>
    cases h
    obtain ⟨bs₀, arrived, ys, hsource, harrived, hruns, rfl⟩ := hbs'
    obtain ⟨zs, hzs, hlast⟩ := E.runs_concat hp hruns
    exact ⟨[zs], ⟨bs₀, arrived, zs, hsource, harrived, hzs, rfl⟩, .cons hlast .nil⟩
  | count phase d => cases h

/-- The delivery of a plan says nothing about what it emits. -/
theorem emits_withDelivery {d : Delivery} {bs : List (List E.Tuple)} :
    E.Emits placement (plan.withDelivery d) bs ↔ E.Emits placement plan bs := by
  cases plan <;> exact Iff.rfl

/-! ### A merge -/

theorem mergeOnHandler_eq {env : Environment} {toFinal : Projection} {width : Nat}
    {maxRows : Option Nat} {p p' : Progress}
    (h : env.mergeOnHandler plan toFinal width maxRows p = .ok plan' p') :
    ∃ phase : MergePhase, phase.projections = [toFinal] ∧
      plan' = .merge plan phase ⟨[env.handler], none, .unbounded, width, maxRows⟩ := by
  obtain ⟨id, q, -, h⟩ := Planning.bind_eq_ok.mp h
  obtain ⟨rfl, -⟩ := Planning.pure_eq_ok.mp h
  exact ⟨_, rfl, rfl⟩

/-- **A merge works on the batches as they arrive.** -/
theorem emits_merge {phase : MergePhase} {d : Delivery} {toFinal : Projection}
    (hphase : phase.projections = [toFinal]) {bs' : List (List E.Tuple)}
    (h : E.Emits placement (.merge plan phase d) bs') :
    ∃ (bs arrived : List (List E.Tuple)) (ys : List E.Tuple), E.Emits placement plan bs ∧
      arrived.Perm bs ∧ E.Step toFinal arrived.flatten ys ∧ bs' = [ys] := by
  obtain ⟨bs, arrived, ys, hbs, harrived, hruns, rfl⟩ := h
  rw [hphase] at hruns
  exact ⟨bs, arrived, ys, hbs, harrived, E.runs_single hruns, rfl⟩

/-! ### Rows of places -/

/-- The rows of some symbols at some places. -/
def rowsAt (outputs : List Symbol) (ys : List Scope) : List E.Tuple := ys.map (E.tuple outputs)

/-- The rows of some symbols at some records. -/
theorem rowsAt_scope (outputs : List Symbol) (rs : List Record) :
    E.rowsAt outputs (rs.map Record.scope) = rs.map fun r => E.tuple outputs r.scope := by
  rw [rowsAt, List.map_map]
  rfl

/-- Whatever a plan emits, it is the rows of some symbols at places with a property. -/
def Lays (placement : Placement) (plan : Plan) (outputs : List Symbol)
    (P : List (List Scope) → Prop) : Prop :=
  ∀ bs, E.Emits placement plan bs → ∃ yss : List (List Scope), bs = yss.map (E.rowsAt outputs) ∧
    P yss

namespace Lays

variable {E} {inputs outputs : List Symbol} {P Q : List (List Scope) → Prop}

theorem imp (h : E.Lays placement plan outputs P) (hPQ : ∀ yss, P yss → Q yss) :
    E.Lays placement plan outputs Q := by
  intro bs hbs
  obtain ⟨yss, rfl, hP⟩ := h bs hbs
  exact ⟨yss, rfl, hPQ yss hP⟩

theorem withDelivery (h : E.Lays placement plan outputs P) (d : Delivery) :
    E.Lays placement (plan.withDelivery d) outputs P :=
  fun bs hbs => h bs (E.emits_withDelivery.mp hbs)

/-- **One more projection lays out rows anew.** -/
theorem addProjection {p : Projection} {window : Option Window} {order : Option ColumnOrder}
    (h : E.Lays placement plan inputs P) (hadd : plan.addProjection p window order = .ok plan')
    (hp : p.IsJoinable) (R : List Scope → List Scope → Prop)
    (hstep : ∀ yss, P yss → ∀ ys ∈ yss, ∀ out, E.Step p (E.rowsAt inputs ys) out →
      ∃ zs, out = E.rowsAt outputs zs ∧ R ys zs) :
    E.Lays placement plan' outputs fun zss => ∃ yss, P yss ∧ List.Forall₂ R yss zss := by
  intro bs' hbs'
  obtain ⟨bs, hbs, hsteps⟩ := E.emits_addProjection hadd hp hbs'
  obtain ⟨yss, rfl, hP⟩ := h bs hbs
  rw [List.forall₂_map_left_iff] at hsteps
  have hone : List.Forall₂ (fun ys out => ∃ zs, R ys zs ∧ out = E.rowsAt outputs zs) yss bs' := by
    refine ((List.forall₂_and_left _ _).mpr ⟨fun ys hys => hys, hsteps⟩).imp fun ys out hys => ?_
    obtain ⟨zs, rfl, hR⟩ := hstep yss hP ys hys.1 out hys.2
    exact ⟨zs, hR, rfl⟩
  obtain ⟨zss, hRs, hout⟩ := forall₂_split hone
  exact ⟨zss, eq_map_of_forall₂ hout, yss, hP, hRs⟩

/-- A merge lays out the rows of all batches together. -/
theorem merge {phase : MergePhase} {d : Delivery} {toFinal : Projection}
    (h : E.Lays placement plan inputs P) (hphase : phase.projections = [toFinal])
    (R : List Scope → List Scope → Prop)
    (hstep : ∀ yss, P yss → ∀ arrived : List (List Scope), arrived.Perm yss → ∀ out,
      E.Step toFinal (E.rowsAt inputs arrived.flatten) out →
      ∃ zs, out = E.rowsAt outputs zs ∧ R arrived.flatten zs) :
    E.Lays placement (.merge plan phase d) outputs fun zss =>
      ∃ (yss arrived : List (List Scope)) (zs : List Scope), P yss ∧ arrived.Perm yss ∧
        R arrived.flatten zs ∧ zss = [zs] := by
  intro bs' hbs'
  obtain ⟨bs, batches, out, hbs, hbatches, hout, rfl⟩ := E.emits_merge hphase hbs'
  obtain ⟨yss, rfl, hP⟩ := h bs hbs
  obtain ⟨arrived, harrived, rfl⟩ := exists_perm_of_perm_map hbatches
  have hflat : (arrived.map (E.rowsAt inputs)).flatten = E.rowsAt inputs arrived.flatten := by
    unfold rowsAt
    rw [List.map_flatten]
  rw [hflat] at hout
  obtain ⟨zs, rfl, hR⟩ := hstep yss hP arrived harrived out hout
  exact ⟨[zs], rfl, yss, arrived, zs, hP, harrived, hR, rfl⟩

end Lays

end Engine

end ShardedQuery
