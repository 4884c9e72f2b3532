import ShardedQuery.Proofs.Planning.Answers

/-!
# Reading records

The leaf of a tree becomes a collect phase.  Each of its nodes reads the records on its shards that
the filter keeps, and in the order that is asked for.

* `Engine.matchingRecords` — the records that a filter keeps, on some nodes.
* `Engine.lays_collect` — a collect phase without projections gives rows of the matching records.
* `Engine.sourced_collect` — as the base of a tree it gives rows of all of them, sorted as asked.
-/

namespace ShardedQuery

namespace Placement

variable (placement : Placement) (nodes : List String)

/-- The nodes that take part read all records. -/
theorem flatten_inputs : (placement.inputs nodes).flatten.flatten = placement.records nodes := by
  cases nodes with
  | nil => rfl
  | cons node nodes =>
    rw [inputs, if_neg (by simp), records, List.flatMap_def]

theorem single_inputs (h : nodes.length ≤ 1) : ∃ shards, placement.inputs nodes = [shards] := by
  match nodes, h with
  | [], _ => exact ⟨[], rfl⟩
  | [node], _ => exact ⟨placement node, rfl⟩

end Placement

namespace Engine

variable (E : Engine)

/-- The records on some nodes that a filter keeps. -/
def matchingRecords (placement : Placement) (clause : WhereClause) (nodes : List String) :
    List Record :=
  (placement.records nodes).filter (E.matching clause)

/-- The shards of a node with the records that a filter keeps. -/
def keptShards (clause : WhereClause) (shards : List (List Record)) : List (List Record) :=
  shards.map (·.filter (E.matching clause))

variable {E} {env : Environment} {placement : Placement} {plan : Plan} {p p' : Progress}

/-- The matching records shard by shard are all of them. -/
theorem flatten_flatMap_keptShards (placement : Placement) (clause : WhereClause)
    (nodes : List String) :
    ((placement.inputs nodes).flatMap (E.keptShards clause)).flatten =
      E.matchingRecords placement clause nodes := by
  rw [matchingRecords, ← Placement.flatten_inputs, List.filter_flatten, List.flatMap_def,
    List.map_flatten]
  rfl

/-- The matching records node by node are all of them. -/
theorem flatten_keptShards (placement : Placement) (clause : WhereClause) (nodes : List String) :
    ((placement.inputs nodes).map fun shards => (E.keptShards clause shards).flatten).flatten =
      E.matchingRecords placement clause nodes := by
  rw [← flatten_flatMap_keptShards, List.flatMap_def]
  induction placement.inputs nodes with
  | nil => rfl
  | cons shards rest ih =>
    rw [List.map_cons, List.flatten_cons, ih, List.map_cons, List.flatten_cons, List.flatten_append]

/-- A phase without projections gives the records that its filter keeps, in the order that is asked
for. -/
theorem reads_bare {phase : CollectPhase} (hphase : phase.projections = [])
    {shards : List (List Record)} {ys : List E.Tuple} (h : E.Reads phase shards ys) :
    ∃ rs : List Record, rs.Perm (E.keptShards phase.filter shards).flatten ∧
      (PreorderOn (E.leOf phase.orderBy) (rs.map Record.scope) →
        (rs.map Record.scope).Pairwise fun a b => E.leOf phase.orderBy a b = true) ∧
      ys = E.rowsAt phase.toCollect (rs.map Record.scope) := by
  unfold Reads at h
  rw [hphase] at h
  cases ho : phase.orderBy with
  | none =>
    simp only [ho] at h
    refine ⟨_, List.Perm.refl _, fun _ => E.pairwise_leOf_none _, ?_⟩
    rw [show ys = _ from h, rowsAt_scope, List.map_flatten]
    rfl
  | some o =>
    simp only [ho] at h
    obtain ⟨rs, ⟨hperm, hsorted⟩, hruns⟩ := h
    refine ⟨rs, hperm, fun hle => ?_, ?_⟩
    · rw [List.pairwise_map]
      refine hsorted ⟨fun a ha b hb => ?_, fun a ha b hb c hc => ?_⟩
      · exact hle.total _ (List.mem_map_of_mem (hperm.mem_iff.mpr ha)) _
          (List.mem_map_of_mem (hperm.mem_iff.mpr hb))
      · exact hle.trans _ (List.mem_map_of_mem (hperm.mem_iff.mpr ha)) _
          (List.mem_map_of_mem (hperm.mem_iff.mpr hb)) _
          (List.mem_map_of_mem (hperm.mem_iff.mpr hc))
    · rw [show ys = _ from hruns, List.flatten_cons, List.flatten_nil, List.append_nil,
        rowsAt_scope]

/-- **A collect phase without projections gives rows of the matching records**, those of each node
in the order that is asked for. -/
theorem lays_collect {phase : CollectPhase} (hphase : phase.projections = []) (d : Delivery) :
    E.Lays placement (.collect phase d) phase.toCollect fun yss =>
      ∃ rss : List (List Record), yss = rss.map (·.map Record.scope) ∧
        rss.flatten.Perm (E.matchingRecords placement phase.filter phase.nodes) ∧
        rss.length = (placement.inputs phase.nodes).length ∧
        ∀ rs ∈ rss, PreorderOn (E.leOf phase.orderBy) (rs.map Record.scope) →
          (rs.map Record.scope).Pairwise fun a b => E.leOf phase.orderBy a b = true := by
  intro bs hbs
  change List.Forall₂ (E.Reads phase) _ bs at hbs
  rw [← flatten_keptShards]
  generalize placement.inputs phase.nodes = inputs at hbs ⊢
  induction hbs with
  | nil =>
    exact ⟨[], rfl, [], rfl, List.Perm.refl _, rfl, fun rs hrs => absurd hrs List.not_mem_nil⟩
  | cons hreads _ ih =>
    obtain ⟨_, rfl, rss, rfl, hperm, hlen, hsorted⟩ := ih
    obtain ⟨rs, hrs, hrsorted, rfl⟩ := reads_bare hphase hreads
    refine ⟨(rs :: rss).map (·.map Record.scope), rfl, rs :: rss, rfl, ?_, ?_, ?_⟩
    · rw [List.map_cons, List.flatten_cons, List.flatten_cons]
      exact hrs.append hperm
    · rw [List.length_cons, List.length_cons, hlen]
    · intro us hus
      rcases List.mem_cons.mp hus with rfl | hus
      · exact hrsorted
      · exact hsorted us hus

theorem collectStep_eq_ok {table : Table} {query : Select} {toCollect : List Symbol}
    {clause : WhereClause} {request : Request}
    (h : Logical.collectStep env (.table table query) toCollect clause request p = .ok plan p') :
    ∃ phase : CollectPhase, phase.projections = [] ∧ phase.toCollect = toCollect ∧
      phase.filter = clause ∧ phase.orderBy = request.order ∧
      (∃ q, env.allocateRouting table clause p = .ok phase.routing q) ∧
      plan = .ofCollect phase request.window toCollect.length request.window.limit
        (request.order.bind fun o => ColumnOrder.ofOrderBy? o toCollect) := by
  obtain ⟨routing, q, hrouting, h⟩ := Planning.bind_eq_ok.mp h
  obtain ⟨id, q', -, h⟩ := Planning.bind_eq_ok.mp h
  obtain ⟨rfl, -⟩ := Planning.pure_eq_ok.mp h
  exact ⟨_, rfl, rfl, rfl, rfl, ⟨q, hrouting⟩, rfl⟩

/-- **Reading as the base of a tree gives rows of all matching records**, sorted as asked. -/
theorem sourced_collect {table : Table} {query : Select} {toCollect : List Symbol}
    {clause : WhereClause} {request : Request} {routing : Routing} {q : Progress}
    (hrouting : env.allocateRouting table clause p = .ok routing q)
    (horder : ∀ o, request.order = some o → ∀ s ∈ o.symbols, ∃ t ∈ toCollect, (t == s) = true)
    (hle : PreorderOn (E.leOf request.order)
      ((E.matchingRecords placement clause routing.nodes).map Record.scope))
    (h : Logical.collectStep env (.table table query) toCollect clause request p = .ok plan p') :
    E.Sourced env placement plan toCollect
      ((E.matchingRecords placement clause routing.nodes).map Record.scope) request := by
  obtain ⟨phase, hphase, rfl, rfl, hasked, ⟨q', hrouting'⟩, rfl⟩ := collectStep_eq_ok h
  rw [hrouting'] at hrouting
  cases hrouting
  have hfound : (request.order.bind fun o => ColumnOrder.ofOrderBy? o phase.toCollect) = none →
      request.order = none := by
    intro hnone
    cases ho : request.order with
    | none => rfl
    | some o =>
      obtain ⟨c, hc⟩ := ColumnOrder.exists_ofOrderBy? (horder o ho)
      rw [ho, Option.bind_some, hc] at hnone
      cases hnone
  refine .asAsked ⟨?_, rfl, ?_, fun hnone => .inl (hfound hnone)⟩ hfound rfl
  · refine (lays_collect hphase _).imp fun yss hyss => ?_
    obtain ⟨rss, rfl, hperm, hlen, hsorted⟩ := hyss
    refine ⟨covers_of_perm ?_, ?_, fun hnodes => ?_⟩
    · rw [← List.map_flatten]
      exact hperm.map _
    · intro ys hys
      obtain ⟨rs, hrs, rfl⟩ := List.mem_map.mp hys
      rw [← hasked] at hle ⊢
      refine hsorted rs hrs (hle.mono fun x hx => ?_)
      obtain ⟨r, hr, rfl⟩ := List.mem_map.mp hx
      exact List.mem_map_of_mem (hperm.mem_iff.mp (List.mem_flatten.mpr ⟨rs, hrs, hr⟩))
    · obtain ⟨shards, hshards⟩ := placement.single_inputs phase.nodes hnodes
      rw [hshards] at hlen
      obtain ⟨rs, rfl⟩ := List.length_eq_one_iff.mp hlen
      exact ⟨_, rfl⟩
  · intro c hc
    obtain ⟨o, ho, hc⟩ := Option.bind_eq_some_iff.mp hc
    exact ⟨o, ho, ColumnOrder.foundIn_of_ofOrderBy? hc⟩

/-! ### Projections on shards -/

/-- What holds of the results of the elements of a list, taken together. -/
theorem exists_flatten {α γ δ : Type} {S : α → List δ → Prop} {f : γ → δ}
    {Q : List α → List γ → Prop} (hnil : Q [] [])
    (happend : ∀ as bs zs ws, Q as zs → Q bs ws → Q (as ++ bs) (zs ++ ws))
    (hstep : ∀ a out, S a out → ∃ zs, Q [a] zs ∧ out = zs.map f) {as : List α}
    {outs : List (List δ)} (h : List.Forall₂ S as outs) :
    ∃ zss : List (List γ), Q as zss.flatten ∧ outs = zss.map (List.map f) := by
  induction h with
  | nil => exact ⟨[], hnil, rfl⟩
  | cons hS _ ih =>
    rename_i a _ as _ _
    obtain ⟨zs, hzs, rfl⟩ := hstep _ _ hS
    obtain ⟨zss, hzss, rfl⟩ := ih
    exact ⟨zs :: zss, happend [a] as zs zss.flatten hzs hzss, rfl⟩

/-- **A phase whose one projection runs on each shard gives what it makes of all shards.** -/
theorem emits_perShard {phase : CollectPhase} {d : Delivery} {p : Projection}
    {bs : List (List E.Tuple)} (h : E.Emits placement (.collect phase d) bs)
    (hp : p.perShard = true) (hphase : phase.projections = [p]) (horder : phase.orderBy = none)
    {γ : Type} {f : γ → E.Tuple} {Q : List (List Record) → List γ → Prop} (hnil : Q [] [])
    (happend : ∀ as bs zs ws, Q as zs → Q bs ws → Q (as ++ bs) (zs ++ ws))
    (hstep : ∀ rs out, E.Step p (E.rowsAt phase.toCollect (rs.map Record.scope)) out →
      ∃ zs, Q [rs] zs ∧ out = zs.map f) :
    ∃ zss : List (List γ),
      Q ((placement.inputs phase.nodes).flatMap (E.keptShards phase.filter)) zss.flatten ∧
      bs = zss.map (List.map f) := by
  have hnode : ∀ (shards : List (List Record)) (ys : List E.Tuple), E.Reads phase shards ys →
      ∃ zs, Q (E.keptShards phase.filter shards) zs ∧ ys = zs.map f := by
    intro shards ys hreads
    unfold Reads at hreads
    simp only [horder, hphase, Runs, if_pos hp] at hreads
    obtain ⟨outs, hsteps, rfl⟩ := hreads
    rw [List.forall₂_map_left_iff] at hsteps
    obtain ⟨zss, hzss, rfl⟩ := exists_flatten hnil happend
      (fun rs out hout => hstep rs out (by rwa [rowsAt_scope])) hsteps
    exact ⟨zss.flatten, hzss, by rw [List.map_flatten]⟩
  have hnodes := exists_flatten
    (Q := fun (nodes : List (List (List Record))) zs =>
      Q (nodes.flatMap (E.keptShards phase.filter)) zs)
    hnil (fun as bs zs ws has hbs => by rw [List.flatMap_append]; exact happend _ _ _ _ has hbs)
    (fun shards ys hreads => by rw [List.flatMap_singleton]; exact hnode shards ys hreads)
    (show List.Forall₂ (E.Reads phase) _ bs from h)
  exact hnodes

end Engine

/-! ### A small cluster -/

namespace Planning

/-- A cluster of two nodes, as the first of them sees it. -/
def twoNodes : Environment where
  jobId := "job"
  cluster.members := (Members.mk "n1" ∅).add "n1" ⟨true, true⟩ |>.add "n2" ⟨false, true⟩
  seed := 0

/-- The column of a table of which every node has a part. -/
def load : Symbol := .reference ⟨"sys.nodes", "load", .long⟩

end Planning

end ShardedQuery
