import ShardedQuery.Proofs.Rows.Sorting
import ShardedQuery.Proofs.Semantics.Values

/-!
# Groups in pieces

Where records are aggregated in two tiers, the first tier sees only a part of each group.  `Pieces`
says how records are cut up: into pieces of records with one value of the keys each.  The second
tier puts the pieces of each group together again.

* `Engine.stateOver_flatten`, `Engine.stateOver_perm` — the state of some records is the sum of the
  states of their parts, in any order.
* `Engine.Pieces`, `Engine.pieces_groupPieces` — the groups of some records are pieces of them.
* `Pieces.perm_groupAt` — the pieces with some value of the keys make up the group.
* `Pieces.perm_dedup_keys` — the pieces have the same values of the keys as the records.
-/

namespace ShardedQuery

namespace Engine

variable (E : Engine)

/-! ### States of parts -/

theorem stateOver_append (f : String) (args : List Symbol) (rs rs' : List Record) :
    E.stateOver f args (rs ++ rs') = E.stateOver f args rs + E.stateOver f args rs' := by
  rw [stateOver, List.map_append, List.sum_append]
  rfl

/-- The state of some records is the sum of the states of their parts. -/
theorem stateOver_flatten (f : String) (args : List Symbol) (rss : List (List Record)) :
    E.stateOver f args rss.flatten = (rss.map (E.stateOver f args)).sum := by
  induction rss with
  | nil => rfl
  | cons rs rss ih =>
    rw [List.flatten_cons, stateOver_append, ih, List.map_cons, List.sum_cons]

/-- The state of some records does not depend on their order. -/
theorem stateOver_perm (f : String) (args : List Symbol) {rs rs' : List Record}
    (h : rs.Perm rs') : E.stateOver f args rs = E.stateOver f args rs' :=
  (h.map _).sum_eq

/-- The value of an aggregate call does not depend on the order of the records. -/
theorem value_groupScope_perm {f : String} (hf : Symbol.isAggregateName f = true)
    (args : List Symbol) {rs rs' : List Record} (h : rs.Perm rs') :
    E.value (E.groupScope rs) (.call f args) = E.value (E.groupScope rs') (.call f args) := by
  rw [E.value_groupScope_aggregate hf, E.value_groupScope_aggregate hf, E.stateOver_perm f args h]

/-! ### Pieces -/

/-- Some records with one value of the keys, next to this value. -/
abbrev Piece := List Literal × List Record

/-- Some records cut up into pieces. -/
structure Pieces (keys : List Symbol) (rs : List Record) (ps : List Piece) : Prop where
  key : ∀ p ∈ ps, ∀ r ∈ p.2, E.keyOf keys r = p.1
  perm : (ps.map (·.2)).flatten.Perm rs

/-- The groups of some records with their values of the keys. -/
def groupPieces (keys : List Symbol) (rs : List Record) : List Piece :=
  (rs.map (E.keyOf keys)).dedup.map fun k => (k, E.groupAt keys rs k)

variable {E} {keys : List Symbol} {rs rs' : List Record} {ps ps' : List Piece}

theorem mem_groupAt {k : List Literal} {r : Record} :
    r ∈ E.groupAt keys rs k ↔ r ∈ rs ∧ E.keyOf keys r = k := by
  rw [groupAt, List.mem_filter, decide_eq_true_iff]

/-- The groups of the values in a list have all records whose value is in it. -/
theorem perm_flatten_groupAt {ks : List (List Literal)} (hks : ks.Nodup)
    (hall : ∀ r ∈ rs, E.keyOf keys r ∈ ks) : (ks.map (E.groupAt keys rs)).flatten.Perm rs := by
  induction ks generalizing rs with
  | nil =>
    cases rs with
    | nil => exact List.Perm.refl _
    | cons r rs => exact absurd (hall r (by simp)) List.not_mem_nil
  | cons k ks ih =>
    -- the records of the first group are set apart, the others are those of the other groups
    obtain ⟨hk, hks⟩ := List.nodup_cons.mp hks
    have hrest : ks.map (E.groupAt keys rs) =
        ks.map (E.groupAt keys (rs.filter fun r => !decide (E.keyOf keys r = k))) := by
      refine List.map_congr_left fun l hl => ?_
      rw [groupAt, groupAt, List.filter_filter]
      refine List.filter_congr fun r _ => ?_
      by_cases hrl : E.keyOf keys r = l
      · have hlk : l ≠ k := fun hlk => hk (hlk ▸ hl)
        simp [hrl, hlk]
      · simp [hrl]
    rw [List.map_cons, List.flatten_cons, hrest]
    refine ((ih hks ?_).append_left _).trans (List.filter_append_perm _ rs)
    intro r hr
    obtain ⟨hr, hne⟩ := List.mem_filter.mp hr
    rcases List.mem_cons.mp (hall r hr) with heq | hmem
    · simp [heq] at hne
    · exact hmem

/-- **The groups of some records are pieces of them.** -/
theorem pieces_groupPieces (keys : List Symbol) (rs : List Record) :
    E.Pieces keys rs (E.groupPieces keys rs) where
  key p hp r hr := by
    obtain ⟨k, -, rfl⟩ := List.mem_map.mp hp
    exact (mem_groupAt.mp hr).2
  perm := by
    rw [groupPieces, List.map_map]
    refine perm_flatten_groupAt (List.nodup_dedup _) fun r hr => ?_
    exact List.mem_dedup.mpr (List.mem_map_of_mem hr)

/-- A group has a record. -/
theorem ne_nil_of_mem_groupPieces {p : Piece} (hp : p ∈ E.groupPieces keys rs) : p.2 ≠ [] := by
  obtain ⟨k, hk, rfl⟩ := List.mem_map.mp hp
  obtain ⟨r, hr, hrk⟩ := List.mem_map.mp (List.mem_dedup.mp hk)
  exact List.ne_nil_of_mem (mem_groupAt.mpr ⟨hr, hrk⟩)

namespace Pieces

theorem nil : E.Pieces keys [] [] := ⟨fun _ hp => absurd hp List.not_mem_nil, List.Perm.refl _⟩

theorem append (h : E.Pieces keys rs ps) (h' : E.Pieces keys rs' ps') :
    E.Pieces keys (rs ++ rs') (ps ++ ps') where
  key p hp := (List.mem_append.mp hp).elim (h.key p) (h'.key p)
  perm := by
    rw [List.map_append, List.flatten_append]
    exact h.perm.append h'.perm

theorem perm_right (h : E.Pieces keys rs ps) (hps : ps'.Perm ps) : E.Pieces keys rs ps' where
  key p hp := h.key p (hps.mem_iff.mp hp)
  perm := ((hps.map _).flatten).trans h.perm

/-- **The pieces with some value of the keys make up the group.** -/
theorem perm_groupAt (h : E.Pieces keys rs ps) (k : List Literal) :
    ((ps.filter fun p => p.1 = k).map (·.2)).flatten.Perm (E.groupAt keys rs k) := by
  refine List.Perm.trans (List.Perm.of_eq ?_) (h.perm.filter _)
  have hkey := h.key
  clear h
  induction ps with
  | nil => rfl
  | cons p ps ih =>
    have hrest := ih fun p' hp' => hkey p' (List.mem_cons_of_mem p hp')
    have hp := hkey p (List.mem_cons_self)
    rw [List.map_cons, List.flatten_cons, List.filter_append, ← hrest]
    by_cases hpk : p.1 = k
    · have hall : p.2.filter (fun r => E.keyOf keys r = k) = p.2 :=
        List.filter_eq_self.mpr fun r hr => decide_eq_true ((hp r hr).trans hpk)
      rw [List.filter_cons_of_pos (by simpa using hpk), List.map_cons, List.flatten_cons, hall]
    · have hnone : p.2.filter (fun r => E.keyOf keys r = k) = [] :=
        List.filter_eq_nil_iff.mpr fun r hr => by rw [hp r hr]; simpa using hpk
      rw [List.filter_cons_of_neg (by simpa using hpk), hnone, List.nil_append]

/-- **Pieces that are not empty have the same values of the keys as the records.** -/
theorem perm_dedup_keys (h : E.Pieces keys rs ps) (hps : ∀ p ∈ ps, p.2 ≠ []) :
    (ps.map (·.1)).dedup.Perm (rs.map (E.keyOf keys)).dedup := by
  rw [List.perm_ext_iff_of_nodup (List.nodup_dedup _) (List.nodup_dedup _)]
  intro k
  rw [List.mem_dedup, List.mem_dedup, List.mem_map, List.mem_map]
  constructor
  · rintro ⟨p, hp, rfl⟩
    obtain ⟨r, hr⟩ := List.exists_mem_of_ne_nil p.2 (hps p hp)
    exact ⟨r, h.perm.mem_iff.mp (List.mem_flatten.mpr ⟨p.2, List.mem_map_of_mem hp, hr⟩),
      h.key p hp r hr⟩
  · rintro ⟨r, hr, rfl⟩
    obtain ⟨_, hrs, hmem⟩ := List.mem_flatten.mp (h.perm.mem_iff.mpr hr)
    obtain ⟨p, hp, rfl⟩ := List.mem_map.mp hrs
    exact ⟨p, hp, (h.key p hp r hmem).symm⟩

end Pieces

end Engine

end ShardedQuery
