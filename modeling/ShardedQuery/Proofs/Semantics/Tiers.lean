import ShardedQuery.Proofs.Semantics.AggregateCells

/-!
# Grouping in one tier and in two

A grouping of records gives a row for each group.  In two tiers the first gives a row for each
piece, and the second one for each group that the pieces make up.

* `Engine.tuple_over_group` — the row of a group: its keys and the values of its aggregates.
* `Engine.step_aggregation_rowsToFinal`, `step_aggregation_partialToFinal` — an aggregation of all
  records, in one tier or in two.
* `Engine.step_group_rowsToFinal`, `step_group_partialToFinal` — **a grouping, in one tier or in
  two, gives the rows of the groups**.
-/

namespace ShardedQuery

namespace Engine

variable {E : Engine} {keys aggregates inputs : List Symbol} {rs rs' : List Record}
  {ps : List Piece} {out : List E.Tuple}

/-! ### Rows of groups -/

/-- The values of aggregates do not depend on the order of the records. -/
theorem tuple_over_perm (h : ∀ a ∈ aggregates, a.isAggregate = true) (hrs : rs.Perm rs') :
    E.tuple aggregates (E.groupScope rs) = E.tuple aggregates (E.groupScope rs') := by
  rw [tuple_eq_map, tuple_eq_map]
  refine List.map_congr_left fun a ha => ?_
  obtain ⟨f, args, rfl, hf⟩ := Symbol.exists_call_of_isAggregate (h a ha)
  rw [E.value_groupScope_perm hf args hrs]

theorem tuple_append (as bs : List Symbol) (x : Scope) :
    E.tuple (as ++ bs) x = E.tuple as x ++ E.tuple bs x := by
  rw [tuple_eq_map, tuple_eq_map, tuple_eq_map, List.map_append]

/-- The row of a group: its keys and the values of its aggregates. -/
theorem tuple_over_group (h : Split.IsGroupable keys aggregates) {k : List Literal} (hne : rs ≠ [])
    (hk : ∀ r ∈ rs, E.keyOf keys r = k) :
    E.tuple (keys ++ aggregates) (E.groupScope rs) =
      k.map .value ++ aggregates.map fun a => .value (E.value (E.groupScope rs) a) := by
  cases rs with
  | nil => exact absurd rfl hne
  | cons r rs =>
    have hkeys : E.tuple keys (E.groupScope (r :: rs)) = k.map .value := by
      rw [← hk r (List.mem_cons_self), keyOf, values_eq, tuple_eq_map, List.map_map]
      exact List.map_congr_left fun s hs =>
        congrArg Cell.value (E.value_groupScope r rs (h.rowLevel s hs))
    rw [tuple_append, hkeys, E.tuple_eq_map aggregates]

/-- The row of a group does not depend on the order of its records. -/
theorem tuple_groupAt_perm (h : Split.IsGroupable keys aggregates) (hrs : rs.Perm rs')
    {k : List Literal} (hk : k ∈ rs.map (E.keyOf keys)) :
    E.tuple (keys ++ aggregates) (E.groupScope (E.groupAt keys rs k)) =
      E.tuple (keys ++ aggregates) (E.groupScope (E.groupAt keys rs' k)) := by
  obtain ⟨r, hr, hrk⟩ := List.mem_map.mp hk
  have hgroup : (E.groupAt keys rs k).Perm (E.groupAt keys rs' k) := hrs.filter _
  have hmem : r ∈ E.groupAt keys rs k := mem_groupAt.mpr ⟨hr, hrk⟩
  rw [tuple_over_group h (List.ne_nil_of_mem hmem) fun s hs => (mem_groupAt.mp hs).2,
    tuple_over_group h (List.ne_nil_of_mem (hgroup.mem_iff.mp hmem)) fun s hs =>
      (mem_groupAt.mp hs).2, ← tuple_eq_map, ← tuple_eq_map, tuple_over_perm h.aggregate hgroup]

/-- Rows that are those of the groups up to their order, as rows at the groups. -/
theorem exists_groups {ks : List (List Literal)} {F : List Literal → E.Tuple}
    (hks : ks.Perm (rs.map (E.keyOf keys)).dedup)
    (hF : ∀ k ∈ ks, F k = E.tuple (keys ++ aggregates) (E.groupScope (E.groupAt keys rs k)))
    (hout : out.Perm (ks.map F)) :
    ∃ zs : List Scope, zs.Perm ((E.groups keys rs).map E.groupScope) ∧
      out = E.rowsAt (keys ++ aggregates) zs := by
  have hmap : ks.map F =
      (ks.map fun k => E.groupScope (E.groupAt keys rs k)).map (E.tuple (keys ++ aggregates)) := by
    rw [List.map_map]
    exact List.map_congr_left hF
  rw [hmap] at hout
  obtain ⟨zs, hzs, rfl⟩ := exists_perm_of_perm_map hout
  refine ⟨zs, hzs.trans ?_, rfl⟩
  rw [groups, List.map_map]
  exact hks.map _

/-! ### Aggregation of all records -/

theorem aggregationOf_eq_ok {mode : AggregateMode} {g : Granularity} {p : Projection}
    (h : Projection.aggregationOf inputs aggregates mode g = .ok p) :
    ∃ ags, aggregates.mapM (Aggregation.ofCall inputs mode) = .ok ags ∧
      p = .aggregation ags mode g := by
  obtain ⟨ags, hags, h⟩ := except_bind_eq_ok.mp h
  cases h
  exact ⟨ags, hags, rfl⟩

section Aggregation

variable {ags : List Aggregation} {g : Granularity} (h : Split.IsGroupable [] aggregates)

include h

/-- The first tier gives one row of partial states. -/
theorem step_aggregation_rowsToPartial
    (hags : aggregates.mapM (Aggregation.ofCall inputs .rowsToPartial) = .ok ags)
    (hout :
      E.Step (.aggregation ags .rowsToPartial g) (E.rowsAt inputs (rs.map Record.scope)) out) :
    out = [E.pieceRow aggregates ([], rs)] := by
  rw [show out = _ from hout,
    map_aggregate hags fun a ha ag hag => aggregate_rowsToPartial h ha hag rs]
  rfl

/-- **A single tier gives one row of values.** -/
theorem step_aggregation_rowsToFinal
    (hags : aggregates.mapM (Aggregation.ofCall inputs .rowsToFinal) = .ok ags)
    (hout : E.Step (.aggregation ags .rowsToFinal g) (E.rowsAt inputs (rs.map Record.scope)) out) :
    out = [E.tuple aggregates (E.groupScope rs)] := by
  rw [show out = _ from hout,
    map_aggregate hags fun a ha ag hag => aggregate_rowsToFinal h ha hag rs, tuple_eq_map]

/-- **The second tier gives one row of values over all records.** -/
theorem step_aggregation_partialToFinal {rss : List (List Record)}
    (hags : aggregates.mapM (Aggregation.ofCall aggregates .partialToFinal) = .ok ags)
    (hout : E.Step (.aggregation ags .partialToFinal g)
      (rss.map fun rs => E.pieceRow aggregates ([], rs)) out) :
    out = [E.tuple aggregates (E.groupScope rss.flatten)] := by
  have hpieces : (rss.map fun rs => E.pieceRow aggregates ([], rs)) =
      (rss.map fun rs => (([], rs) : Piece)).map (E.pieceRow aggregates) := by
    rw [List.map_map]
    rfl
  have hrecords : (rss.map fun rs => (([], rs) : Piece)).map (·.2) = rss := by
    rw [List.map_map]
    exact List.map_id _
  have hlength : ∀ p ∈ rss.map fun rs => (([], rs) : Piece),
      p.1.length = ([] : List Symbol).length := by
    intro p hp
    obtain ⟨rs, -, rfl⟩ := List.mem_map.mp hp
    rfl
  rw [show out = _ from hout, hpieces,
    map_aggregate hags fun a ha ag hag => aggregate_partialToFinal h ha hag hlength, hrecords,
    tuple_eq_map]

end Aggregation

/-! ### Grouping -/

theorem groupOf_eq_ok {mode : AggregateMode} {g : Granularity} {p : Projection}
    (h : Projection.groupOf inputs keys aggregates mode g = .ok p) :
    ∃ keys' ags, Symbol.readAllFrom inputs keys = .ok keys' ∧
      aggregates.mapM (Aggregation.ofCall inputs mode) = .ok ags ∧ p = .group keys' ags mode g := by
  obtain ⟨keys', hkeys, h⟩ := except_bind_eq_ok.mp h
  obtain ⟨ags, hags, h⟩ := except_bind_eq_ok.mp h
  cases h
  exact ⟨keys', ags, hkeys, hags, rfl⟩

/-- The keys of a piece are read from its row. -/
theorem values_pieceRow (h : Split.IsGroupable keys aggregates) {keys' : List Symbol}
    (hkeys : Symbol.readAllFrom (keys ++ aggregates) keys = .ok keys') {p : Piece} (hne : p.2 ≠ [])
    (hp : ∀ r ∈ p.2, E.keyOf keys r = p.1) :
    E.values (E.inRow (E.pieceRow aggregates p)) keys' = p.1 := by
  obtain ⟨r, hr⟩ := List.exists_mem_of_ne_nil p.2 hne
  have hkey : p.1 = keys.map (E.value r.scope) := by rw [← hp r hr, keyOf, values_eq]
  rw [Symbol.readAllFrom_eq] at hkeys
  rw [values_eq, hkey]
  refine E.map_value_of_forall₂
    (((List.forall₂_and_left _ _).mpr ⟨fun k hk => hk, forall₂_of_except_mapM hkeys⟩).imp
      fun k t hkt => ?_)
  obtain ⟨hk, ht⟩ := hkt
  obtain ⟨i, hi⟩ := position?_isSome (List.mem_append_left aggregates hk) (Symbol.beq_refl k)
  rcases Symbol.readFrom_eq_ok ht with ⟨j, hj, rfl⟩ | ⟨hnone, -⟩
  · obtain ⟨b, hb, hbk⟩ := position?_eq_some hj
    -- the column cannot be that of an aggregate, since keys are none
    have hlt : j < keys.length := by
      by_contra hle
      rw [List.getElem?_append_right (by omega)] at hb
      have hagg := h.aggregate b (List.mem_of_getElem? hb)
      rw [Symbol.isAggregate_congr hbk, (h.rowLevel k hk).not_aggregate] at hagg
      cases hagg
    rw [List.getElem?_append_left hlt] at hb
    show ((E.pieceRow aggregates p)[j]?).elim .null Cell.literal = _
    rw [pieceRow, List.getElem?_append_left (by rwa [hkey, List.length_map, List.length_map]), hkey,
      List.map_map, List.getElem?_map, hb, ← E.value_congr r.scope hbk]
    rfl
  · rw [hi] at hnone
    cases hnone

section Grouping

variable {keys' : List Symbol} {ags : List Aggregation} {g : Granularity}
  (h : Split.IsGroupable keys aggregates)

include h

/-- The rows of some records that have some value of the keys. -/
theorem filter_rowsAt (hkeys : Symbol.readAllFrom inputs keys = .ok keys') (k : List Literal) :
    (E.rowsAt inputs (rs.map Record.scope)).filter (fun row => E.values (E.inRow row) keys' = k) =
      E.rowsAt inputs ((E.groupAt keys rs k).map Record.scope) := by
  rw [rowsAt_scope, rowsAt_scope, groupAt, List.filter_map]
  refine congrArg _ (List.filter_congr fun r _ => ?_)
  show decide _ = decide _
  rw [E.values_readAllFrom (fun s hs => h.readable_key hs) hkeys]
  rfl

theorem map_keys_rowsAt (hkeys : Symbol.readAllFrom inputs keys = .ok keys') :
    (E.rowsAt inputs (rs.map Record.scope)).map (fun row => E.values (E.inRow row) keys') =
      rs.map (E.keyOf keys) := by
  rw [rowsAt_scope, List.map_map]
  refine List.map_congr_left fun r _ => ?_
  exact E.values_readAllFrom (fun s hs => h.readable_key hs) hkeys r.scope

/-- The first tier gives a row of partial states for each piece. -/
theorem step_group_rowsToPartial (hkeys : Symbol.readAllFrom inputs keys = .ok keys')
    (hags : aggregates.mapM (Aggregation.ofCall inputs .rowsToPartial) = .ok ags)
    (hout :
      E.Step (.group keys' ags .rowsToPartial g) (E.rowsAt inputs (rs.map Record.scope)) out) :
    ∃ ps : List Piece, E.Pieces keys rs ps ∧ (∀ p ∈ ps, p.2 ≠ []) ∧
      out = ps.map (E.pieceRow aggregates) := by
  change out.Perm _ at hout
  rw [map_keys_rowsAt h hkeys] at hout
  have hrows : (rs.map (E.keyOf keys)).dedup.map (E.groupRow keys' ags .rowsToPartial
      (E.rowsAt inputs (rs.map Record.scope))) =
      (E.groupPieces keys rs).map (E.pieceRow aggregates) := by
    rw [groupPieces, List.map_map]
    refine List.map_congr_left fun k _ => ?_
    show _ ++ _ = _ ++ _
    rw [filter_rowsAt h hkeys k,
      map_aggregate hags fun a ha ag hag => aggregate_rowsToPartial h ha hag _]
  rw [hrows] at hout
  obtain ⟨ps, hps, rfl⟩ := exists_perm_of_perm_map hout
  exact ⟨ps, (pieces_groupPieces keys rs).perm_right hps,
    fun p hp => ne_nil_of_mem_groupPieces (hps.mem_iff.mp hp), rfl⟩

/-- **A single tier gives the rows of the groups.** -/
theorem step_group_rowsToFinal (hkeys : Symbol.readAllFrom inputs keys = .ok keys')
    (hags : aggregates.mapM (Aggregation.ofCall inputs .rowsToFinal) = .ok ags)
    (hout : E.Step (.group keys' ags .rowsToFinal g) (E.rowsAt inputs (rs.map Record.scope)) out)
    (hrs : rs.Perm rs') :
    ∃ zs : List Scope, zs.Perm ((E.groups keys rs').map E.groupScope) ∧
      out = E.rowsAt (keys ++ aggregates) zs := by
  change out.Perm _ at hout
  rw [map_keys_rowsAt h hkeys] at hout
  refine exists_groups (hrs.map _).dedup (fun k hk => ?_) hout
  rw [List.mem_dedup] at hk
  obtain ⟨r, hr, hrk⟩ := List.mem_map.mp hk
  rw [← tuple_groupAt_perm h hrs hk, tuple_over_group h
    (List.ne_nil_of_mem (mem_groupAt.mpr ⟨hr, hrk⟩)) fun s hs => (mem_groupAt.mp hs).2]
  show _ ++ _ = _ ++ _
  rw [filter_rowsAt h hkeys k,
    map_aggregate hags fun a ha ag hag => aggregate_rowsToFinal h ha hag _]

/-- **The second tier gives the rows of the groups** that the pieces make up. -/
theorem step_group_partialToFinal
    (hkeys : Symbol.readAllFrom (keys ++ aggregates) keys = .ok keys')
    (hags : aggregates.mapM (Aggregation.ofCall (keys ++ aggregates) .partialToFinal) = .ok ags)
    (hps : E.Pieces keys rs ps) (hne : ∀ p ∈ ps, p.2 ≠ [])
    (hout : E.Step (.group keys' ags .partialToFinal g) (ps.map (E.pieceRow aggregates)) out) :
    ∃ zs : List Scope, zs.Perm ((E.groups keys rs).map E.groupScope) ∧
      out = E.rowsAt (keys ++ aggregates) zs := by
  have hvalues : ∀ p ∈ ps, E.values (E.inRow (E.pieceRow aggregates p)) keys' = p.1 :=
    fun p hp => values_pieceRow h hkeys (hne p hp) (hps.key p hp)
  have hlength : ∀ p ∈ ps, p.1.length = keys.length := by
    intro p hp
    obtain ⟨r, hr⟩ := List.exists_mem_of_ne_nil p.2 (hne p hp)
    rw [← hps.key p hp r hr, keyOf, values_eq, List.length_map]
  have hmap : (ps.map (E.pieceRow aggregates)).map (fun row => E.values (E.inRow row) keys') =
      ps.map (·.1) := by
    rw [List.map_map]
    exact List.map_congr_left hvalues
  change out.Perm _ at hout
  rw [hmap] at hout
  refine exists_groups (hps.perm_dedup_keys hne) (fun k hk => ?_) hout
  have hfilter : (ps.map (E.pieceRow aggregates)).filter
      (fun row => E.values (E.inRow row) keys' = k) =
      (ps.filter fun p => p.1 = k).map (E.pieceRow aggregates) := by
    rw [List.filter_map]
    refine congrArg _ (List.filter_congr fun p hp => ?_)
    show decide _ = decide _
    rw [hvalues p hp]
  have hgroup := hps.perm_groupAt k
  have hk := (hps.perm_dedup_keys hne).mem_iff.mp hk
  rw [List.mem_dedup] at hk
  obtain ⟨r, hr, hrk⟩ := List.mem_map.mp hk
  rw [tuple_over_group h (List.ne_nil_of_mem (mem_groupAt.mpr ⟨hr, hrk⟩))
    fun s hs => (mem_groupAt.mp hs).2]
  show _ ++ _ = _ ++ _
  rw [hfilter, map_aggregate hags fun a ha ag hag => aggregate_partialToFinal h ha hag
    fun p hp => hlength p (List.mem_filter.mp hp).1, ← tuple_eq_map, ← tuple_eq_map,
    tuple_over_perm h.aggregate hgroup]

end Grouping

end Engine

end ShardedQuery
