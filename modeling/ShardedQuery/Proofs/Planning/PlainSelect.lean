import ShardedQuery.Planning.Planner
import ShardedQuery.Proofs.Planning.Collecting

/-!
# Queries without aggregates

A query that calls no aggregate and has no grouping is planned by way of its tree.  Each node sorts
its records and keeps as many as the final cut may need; the rows of several nodes are sorted again
where they meet.

* `Select.IsPlain` — no aggregate, no grouping, and functions named in lower case.
* `Planning.plan_plain` — the planner finds no special plan for such a query.
* `Planning.plain_answers` — **its plan delivers the answer of the query**, wherever the records
  are.
-/

namespace ShardedQuery

/-- A query without aggregates and without a grouping, with functions named in lower case. -/
structure Select.IsPlain (q : Select) : Prop where
  groupBy : q.groupBy = none
  rowLevel : ∀ s ∈ q.symbols, s.IsRowLevel
  lowercase : ∀ s ∈ q.symbols, s.IsLowercase

namespace Select.IsPlain

variable {q : Select}

theorem isPlainCount (h : q.IsPlain) : q.isPlainCount = false := by
  unfold Select.isPlainCount
  split
  · rename_i f houtputs
    have hf := h.rowLevel (.call f []) (Select.output_mem_symbols (by rw [houtputs]; simp))
    rw [Symbol.isRowLevel_call] at hf
    by_contra hcount
    have hcount : f = "count" := by simpa using hcount
    rw [hcount] at hf
    exact absurd hf.1 (by decide +kernel)
  · rfl

theorem base_eq (h : q.IsPlain) (table : Table) :
    Logical.base (.table table q) =
      .collect (.table table q) (Logical.toCollectOf q) q.filter :=
  Logical.base_of_rows h.groupBy (Split.aggregates_eq_nil h.rowLevel)

theorem toCollectOf_eq (h : q.IsPlain) :
    Logical.toCollectOf q = q.orderBy.elim (distinct q.outputs)
      fun o => distinct (distinct q.outputs ++ o.symbols) := by
  have haggregates := Split.aggregates_eq_nil h.rowLevel
  have hcollect : (Split.ofSelect q).toCollect = distinct q.outputs := by
    unfold Split.ofSelect at haggregates ⊢
    simp only at haggregates ⊢
    rw [haggregates, h.groupBy]
    rfl
  unfold Logical.toCollectOf
  cases q.orderBy with
  | none => exact hcollect
  | some o =>
    simp only [hcollect, haggregates, h.groupBy]
    rfl

/-- What is fetched are the outputs and the symbols to sort by. -/
theorem mem_symbols_of_mem_toCollectOf (h : q.IsPlain) {s : Symbol}
    (hs : s ∈ Logical.toCollectOf q) : s ∈ q.symbols := by
  rw [h.toCollectOf_eq] at hs
  cases ho : q.orderBy with
  | none =>
    rw [ho] at hs
    exact Select.output_mem_symbols (mem_of_mem_distinct hs)
  | some o =>
    rw [ho] at hs
    rcases List.mem_append.mp (mem_of_mem_distinct hs) with hs | hs
    · exact Select.output_mem_symbols (mem_of_mem_distinct hs)
    · exact Select.orderBy_mem_symbols ho hs

theorem exists_mem_toCollectOf (h : q.IsPlain) {o : OrderBy} (ho : q.orderBy = some o) {s : Symbol}
    (hs : s ∈ o.symbols) : ∃ t ∈ Logical.toCollectOf q, (t == s) = true := by
  rw [h.toCollectOf_eq, ho]
  exact exists_mem_distinct (List.mem_append_right _ hs)

end Select.IsPlain

namespace Planning

variable {env : Environment} {table : Table} {q : Select} {p p' : Progress} {plan : Plan}

/-- **The planner finds no special plan for a query without aggregates.** -/
theorem plan_plain (hq : q.IsPlain) :
    Planning.plan env (.table table q) p = general env (.table table q) p := by
  have hcount : count? env table q = return none := by
    unfold count?
    rw [if_pos]
    simp [hq.isPlainCount]
  have hgroups : localGroups? env table q = return none := by
    unfold localGroups?
    rw [hq.groupBy]
  have hspecial : special? env (.table table q) p = .ok none p := by
    unfold special?
    simp only [hcount, hgroups]
    cases env.settings.countPushdown <;> cases env.settings.reduceOnCollector <;> rfl
  unfold Planning.plan
  show EStateM.bind _ _ p = _
  unfold EStateM.bind
  rw [hspecial]

/-- **The plan of a query without aggregates delivers the answer of the query.**  This holds for
every cluster and every placement of the records on the nodes that are read, if the values to sort
by are totally preordered. -/
theorem plain_answers (E : Engine) (hq : q.IsPlain)
    (hplan : Planning.plan env (.table table q) p = .ok plan p') (placement : Placement)
    (hle : PreorderOn (E.leOf q.orderBy)
      ((E.matchingRecords placement q.filter plan.readNodes).map Record.scope)) :
    ∃ w, env.window q.limit q.offset = .ok w ∧ (∃ rows, E.Delivers placement plan rows) ∧
      ∀ rows, E.Delivers placement plan rows → E.Answers q w
        ((E.matchingRecords placement q.filter plan.readNodes).map Record.scope) rows := by
  rw [plan_plain hq] at hplan
  obtain ⟨routing, p₁, hrouting, hnodes⟩ := Logical.readNodes_general hplan
  rw [hnodes] at hle ⊢
  have hreadable : ∀ (inputs : List Symbol), ∀ s ∈ q.symbols, s.ReadableFrom inputs :=
    fun inputs s hs => Symbol.readableFrom_of_isRowLevel (hq.lowercase s hs) (hq.rowLevel s hs)
  have hbase : ∀ window plan p', (Logical.base (.table table q)).build env ⟨window, q.orderBy⟩ p =
      .ok plan p' → E.Sourced env placement plan (Logical.base (.table table q)).outputs
        ((E.matchingRecords placement q.filter routing.nodes).map Record.scope)
        ⟨window, q.orderBy⟩ := by
    intro window plan p' h
    rw [hq.base_eq] at h ⊢
    exact Engine.sourced_collect hrouting (fun o ho s hs => hq.exists_mem_toCollectOf ho hs) hle h
  obtain ⟨w, hwindow, hanswers⟩ := Engine.answers_of_build hbase (hreadable _)
    (fun s hs => hreadable _ s (hq.mem_symbols_of_mem_toCollectOf (by rwa [hq.base_eq] at hs)))
    (hle.mono fun x hx => (List.mem_filter.mp hx).1) hplan
  exact ⟨w, hwindow, E.exists_delivers placement plan, hanswers⟩

/-- The smallest value of the column. -/
def smallestLoad : Select where
  outputs := [load]
  orderBy := some (.ascending load)
  limit := some (.ofInt 1)

/-- The smallest value over two nodes, of which the first has two records.  The window is the first
row. -/
theorem plain_answers_smallestLoad :
    let placement : Placement := fun node =>
      if node = "n1" then [[.ofInt 5], [.ofInt 2]] else [[.ofInt 3]]
    let table := Table.ofNodes "sys" "nodes"
    smallestLoad.IsPlain ∧ ∃ plan p',
      Planning.plan twoNodes (.table table smallestLoad) (.start 0) = .ok plan p' ∧
      plan.readNodes = ["n1", "n2"] ∧
      twoNodes.window smallestLoad.limit smallestLoad.offset = .ok ⟨some 1, 0⟩ ∧
      (∃ rows, Engine.counting.Delivers placement plan rows) ∧
      ∀ rows, Engine.counting.Delivers placement plan rows →
        Engine.counting.Answers smallestLoad ⟨some 1, 0⟩
          ((Engine.counting.matchingRecords placement {} plan.readNodes).map Record.scope)
          rows := by
  intro placement table
  have hq : smallestLoad.IsPlain := ⟨rfl, by decide, by decide⟩
  obtain ⟨plan, p', hplan, hnodes⟩ : ∃ plan p',
      Planning.plan twoNodes (.table table smallestLoad) (.start 0) = .ok plan p' ∧
        plan.readNodes = ["n1", "n2"] := ⟨_, _, rfl, rfl⟩
  have hfirst : twoNodes.window smallestLoad.limit smallestLoad.offset = .ok ⟨some 1, 0⟩ := rfl
  have hle : PreorderOn (Engine.counting.leOf smallestLoad.orderBy)
      ((Engine.counting.matchingRecords placement {} plan.readNodes).map Record.scope) := by
    rw [hnodes]
    decide +kernel
  obtain ⟨w, hwindow, hanswers⟩ := plain_answers Engine.counting hq hplan placement hle
  cases hfirst.symm.trans hwindow
  exact ⟨hq, plan, p', hplan, hnodes, hfirst, hanswers⟩

end Planning

end ShardedQuery
