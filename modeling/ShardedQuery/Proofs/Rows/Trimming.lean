import ShardedQuery.Plan.Order
import ShardedQuery.Proofs.Rows.Sorting

/-!
# Trimming before the cut

Sources of rows may leave out what the final cut cannot need.  `Covers le k xs ys` says when that is
safe: `ys` are the rows `xs` but for some, and each row left out comes after `k` rows that are kept.

* `covers_first` — the first `k` rows of a sorted list cover it.
* `Covers.trans`, `Covers.append` — covering in two steps, and source by source.
* `Covers.exists_sorted` — **the top of a covered list, once sorted, is a top of the whole list.**
* `Window.cut_eq_of_first_eq` — a window depends on the first rows only, as many as its reach.
-/

namespace ShardedQuery

variable {α : Type} {le : α → α → Bool}

/-! ### Windows -/

namespace Window

/-- The sum of limit and offset is a count, so that the reach of the window is exact. -/
def IsSmall (w : Window) : Prop := ∀ n, w.limit = some n → n + w.offset ≤ maxCount

/-- The first rows, all of them without a limit. -/
def first (k : Option Nat) (xs : List α) : List α := cut ⟨k, 0⟩ xs

@[simp] theorem first_none (xs : List α) : first none xs = xs := rfl

@[simp] theorem first_some (n : Nat) (xs : List α) : first (some n) xs = xs.take n := rfl

theorem cut_unbounded (xs : List α) : cut unbounded xs = xs := rfl

theorem map_cut {β : Type} (f : α → β) (w : Window) (xs : List α) :
    (w.cut xs).map f = w.cut (xs.map f) := by
  unfold cut
  split
  · rw [List.map_take, List.map_drop]
  · rw [List.map_drop]

theorem reach_of_limit {w : Window} (hw : w.IsSmall) {n : Nat} (h : w.limit = some n) :
    w.reach = some (n + w.offset) := by
  rw [reach, h, Option.map_some, Nat.min_eq_left (hw n h)]

theorem reach_of_no_limit {w : Window} (h : w.limit = none) : w.reach = none := by
  rw [reach, h, Option.map_none]

/-- **A window depends on as many first rows as it reaches.** -/
theorem cut_eq_of_first_eq {w : Window} (hw : w.IsSmall) {xs ys : List α}
    (h : first w.reach xs = first w.reach ys) : w.cut xs = w.cut ys := by
  cases hl : w.limit with
  | none =>
    rw [reach_of_no_limit hl, first_none, first_none] at h
    rw [h]
  | some n =>
    rw [reach_of_limit hw hl, first_some, first_some] at h
    have hcut : ∀ zs : List α, w.cut zs = (zs.take (n + w.offset)).drop w.offset := by
      intro zs
      rw [cut, hl, List.drop_take, Nat.add_sub_cancel]
    rw [hcut, hcut, h]

theorem cut_sublist (w : Window) (xs : List α) : (w.cut xs).Sublist xs := by
  unfold cut
  split
  · exact (List.take_sublist _ _).trans (List.drop_sublist _ _)
  · exact List.drop_sublist _ _

theorem first_sublist (k : Option Nat) (xs : List α) : (first k xs).Sublist xs := cut_sublist _ xs

/-- A window leaves at most as many rows as its limit. -/
theorem length_cut_le {w : Window} {n : Nat} (h : w.limit = some n) (xs : List α) :
    (w.cut xs).length ≤ n := by
  unfold cut
  rw [h]
  exact List.length_take_le _ _

end Window

/-! ### Covering -/

/-- The list `ys` has the elements of `xs` but for some, and before each of these come `k` that it
has.  Without a bound nothing is left out. -/
def Covers (le : α → α → Bool) (k : Option Nat) (xs ys : List α) : Prop :=
  ∃ rest, xs.Perm (ys ++ rest) ∧
    ∀ z ∈ rest, ∃ n, k = some n ∧ n ≤ ys.countP fun y => le y z

theorem covers_of_perm {k : Option Nat} {xs ys : List α} (h : ys.Perm xs) : Covers le k xs ys :=
  ⟨[], by rw [List.append_nil]; exact h.symm, fun _ hz => absurd hz List.not_mem_nil⟩

namespace Covers

variable {k : Option Nat} {xs ys zs : List α}

theorem perm_of_none (h : Covers le none xs ys) : ys.Perm xs := by
  obtain ⟨rest, hperm, hrest⟩ := h
  cases rest with
  | nil => rw [List.append_nil] at hperm; exact hperm.symm
  | cons z rest =>
    obtain ⟨n, hn, -⟩ := hrest z (by simp)
    cases hn

theorem mem (h : Covers le k xs ys) {y : α} (hy : y ∈ ys) : y ∈ xs := by
  obtain ⟨rest, hperm, -⟩ := h
  exact hperm.mem_iff.mpr (List.mem_append_left rest hy)

theorem weaken (h : Covers le none xs ys) : Covers le k xs ys := covers_of_perm h.perm_of_none

theorem perm_left (h : Covers le k xs ys) (hx : xs.Perm zs) : Covers le k zs ys := by
  obtain ⟨rest, hperm, hrest⟩ := h
  exact ⟨rest, hx.symm.trans hperm, hrest⟩

theorem perm_right (h : Covers le k xs ys) (hy : ys.Perm zs) : Covers le k xs zs := by
  obtain ⟨rest, hperm, hrest⟩ := h
  refine ⟨rest, hperm.trans (hy.append_right rest), fun z hz => ?_⟩
  obtain ⟨n, hn, hcount⟩ := hrest z hz
  exact ⟨n, hn, by rwa [← hy.countP_eq]⟩

/-- What covers a covering list covers the whole list. -/
theorem trans (h : Covers le k xs ys) (h' : Covers le k ys zs) (hle : PreorderOn le xs) :
    Covers le k xs zs := by
  obtain ⟨rest, hperm, hrest⟩ := h
  obtain ⟨rest', hperm', hrest'⟩ := h'
  have hmem : ∀ y ∈ ys, y ∈ xs := fun y hy => hperm.mem_iff.mpr (List.mem_append_left rest hy)
  refine ⟨rest' ++ rest, ?_, fun z hz => ?_⟩
  · rw [← List.append_assoc]
    exact hperm.trans (hperm'.append_right rest)
  rcases List.mem_append.mp hz with hz | hz
  · exact hrest' z hz
  obtain ⟨n, hn, hcount⟩ := hrest z hz
  refine ⟨n, hn, ?_⟩
  rw [hperm'.countP_eq, List.countP_append] at hcount
  by_cases hzero : rest'.countP (fun y => le y z) = 0
  · omega
  -- one that comes before `z` was left out in the second step, and with it all before it
  obtain ⟨y, hy, hyz⟩ := List.countP_pos_iff.mp (Nat.pos_of_ne_zero hzero)
  obtain ⟨n', hn', hcount'⟩ := hrest' y hy
  rw [hn] at hn'
  cases hn'
  refine Nat.le_trans hcount' (List.countP_mono_left fun u hu huy => ?_)
  have hy' : y ∈ ys := hperm'.mem_iff.mpr (List.mem_append_right zs hy)
  have hu' : u ∈ ys := hperm'.mem_iff.mpr (List.mem_append_left rest' hu)
  exact hle.trans u (hmem u hu') y (hmem y hy') z
    (hperm.mem_iff.mpr (List.mem_append_right ys hz)) huy hyz

/-- Lists that are covered one by one are covered together. -/
theorem append {xs' ys' : List α} (h : Covers le k xs ys) (h' : Covers le k xs' ys') :
    Covers le k (xs ++ xs') (ys ++ ys') := by
  obtain ⟨rest, hperm, hrest⟩ := h
  obtain ⟨rest', hperm', hrest'⟩ := h'
  refine ⟨rest ++ rest', ?_, fun z hz => ?_⟩
  · refine (hperm.append hperm').trans ?_
    rw [List.append_assoc, List.append_assoc]
    refine List.Perm.append_left ys ?_
    rw [← List.append_assoc, ← List.append_assoc]
    exact List.perm_append_comm.append_right rest'
  · rcases List.mem_append.mp hz with hz | hz
    · obtain ⟨n, hn, hcount⟩ := hrest z hz
      exact ⟨n, hn, by rw [List.countP_append]; omega⟩
    · obtain ⟨n, hn, hcount⟩ := hrest' z hz
      exact ⟨n, hn, by rw [List.countP_append]; omega⟩

end Covers

/-- The first rows of a sorted list cover it. -/
theorem covers_first {k : Option Nat} {xs : List α}
    (h : xs.Pairwise fun a b => le a b = true) : Covers le k xs (Window.first k xs) := by
  cases k with
  | none => exact covers_of_perm (List.Perm.refl xs)
  | some n =>
    refine ⟨xs.drop n, by rw [Window.first_some, List.take_append_drop], fun z hz => ?_⟩
    refine ⟨n, rfl, ?_⟩
    have hn : n < xs.length := by
      by_contra hle
      rw [List.drop_eq_nil_of_le (by omega)] at hz
      cases hz
    have hsplit := h
    rw [← List.take_append_drop n xs, List.pairwise_append] at hsplit
    have hall : (xs.take n).countP (fun y => le y z) = (xs.take n).length :=
      List.countP_eq_length.mpr fun y hy => hsplit.2.2 y hy z hz
    rw [Window.first_some, hall, List.length_take]
    omega

/-- An element of a sorted list that does not come before `z` has all those in front of it that do.
-/
theorem countP_le_of_not_le {m u v : List α} {a z : α} (hm : m = u ++ a :: v)
    (hsorted : m.Pairwise fun a b => le a b = true)
    (htrans : ∀ y ∈ m, le a y = true → le y z = true → le a z = true)
    (haz : ¬ le a z = true) : m.countP (fun y => le y z) ≤ u.length := by
  subst hm
  have hav := List.pairwise_cons.mp (List.pairwise_append.mp hsorted).2.1
  have hzero : (a :: v).countP (fun y => le y z) = 0 := by
    rw [List.countP_eq_zero]
    intro y hy hyz
    rcases List.mem_cons.mp hy with rfl | hy
    · exact haz hyz
    · exact haz (htrans y (by simp [hy]) (hav.1 y hy) hyz)
  rw [List.countP_append, hzero, Nat.add_zero]
  exact List.countP_le_length

/-- What has `n` elements of a sorted list before it comes after each of its first `n`. -/
theorem le_of_mem_take {m : List α} {n : Nat} {a z : α}
    (hsorted : m.Pairwise fun a b => le a b = true)
    (htrans : ∀ y ∈ m, le a y = true → le y z = true → le a z = true)
    (ha : a ∈ m.take n) (hn : n ≤ m.countP fun y => le y z) : le a z = true := by
  by_contra haz
  obtain ⟨i, hi, hia⟩ := List.getElem_of_mem ha
  rw [List.length_take] at hi
  have hsplit : m = m.take i ++ a :: m.drop (i + 1) := by
    rw [← hia, List.getElem_take, List.getElem_cons_drop, List.take_append_drop]
  have hfew := countP_le_of_not_le hsplit hsorted htrans haz
  rw [List.length_take] at hfew
  omega

/-- The top of a sorted list stays in order in front of a list whose elements all come after it. -/
theorem pairwise_take_append {m tail : List α} {n : Nat}
    (hsorted : m.Pairwise fun a b => le a b = true)
    (htail : tail.Pairwise fun a b => le a b = true)
    (hbetween : ∀ a ∈ m.take n, ∀ z ∈ tail, le a z = true) :
    (m.take n ++ tail).Pairwise fun a b => le a b = true :=
  List.pairwise_append.mpr ⟨hsorted.sublist (List.take_sublist n m), htail, hbetween⟩

/-- **The top of a covered list is a top of the whole list.**  If the kept elements are put in
order, then all elements can be put in an order that starts in the same way. -/
theorem Covers.exists_sorted {k : Option Nat} {xs ys m : List α} (h : Covers le k xs ys)
    (hle : PreorderOn le xs) (hperm : m.Perm ys) (hsorted : m.Pairwise fun a b => le a b = true) :
    ∃ p : List α, p.Perm xs ∧ (p.Pairwise fun a b => le a b = true) ∧
      Window.first k p = Window.first k m := by
  have hm : Covers le k xs m := h.perm_right hperm.symm
  cases k with
  | none => exact ⟨m, hm.perm_of_none, hsorted, rfl⟩
  | some n =>
    obtain ⟨rest, hrest, hbound⟩ := hm
    have hcount : ∀ z ∈ rest, n ≤ m.countP fun y => le y z := by
      intro z hz
      obtain ⟨n', hn', hz'⟩ := hbound z hz
      cases hn'
      exact hz'
    have hmem : ∀ y ∈ m ++ rest, y ∈ xs := fun y hy => hrest.mem_iff.mpr hy
    by_cases hn : n ≤ m.length
    · -- all that is not on top is put in order behind the top
      have htail := List.mergeSort_perm (m.drop n ++ rest) le
      refine ⟨m.take n ++ (m.drop n ++ rest).mergeSort le, ?_, ?_, ?_⟩
      · refine (htail.append_left (m.take n)).trans ?_
        rw [← List.append_assoc, List.take_append_drop]
        exact hrest.symm
      · have hmono : PreorderOn le (m.drop n ++ rest) :=
          hle.mono fun y hy => hmem y
            ((List.mem_append.mp hy).elim
              (fun h => List.mem_append_left rest (List.mem_of_mem_drop h))
              (List.mem_append_right m))
        refine pairwise_take_append hsorted hmono.pairwise_mergeSort fun a ha z hz => ?_
        rcases List.mem_append.mp (htail.mem_iff.mp hz) with hz | hz
        · have hsplit := hsorted
          rw [← List.take_append_drop n m, List.pairwise_append] at hsplit
          exact hsplit.2.2 a ha z hz
        · refine le_of_mem_take hsorted (fun y hy => ?_) ha (hcount z hz)
          exact hle.trans a (hmem a (List.mem_append_left rest (List.mem_of_mem_take ha)))
            y (hmem y (List.mem_append_left rest hy)) z (hmem z (List.mem_append_right m hz))
      · have hlen : (m.take n).length = n := by rw [List.length_take]; omega
        rw [Window.first_some, Window.first_some, List.take_append_of_le_length (by omega),
          List.take_take, Nat.min_self]
    · -- fewer than `n` are kept, so nothing has been left out
      refine ⟨m, ?_, hsorted, rfl⟩
      cases rest with
      | nil => rw [List.append_nil] at hrest; exact hrest.symm
      | cons z rest =>
        have hle := hcount z (by simp)
        have := List.countP_le_length (p := fun y => le y z) (l := m)
        omega

end ShardedQuery
