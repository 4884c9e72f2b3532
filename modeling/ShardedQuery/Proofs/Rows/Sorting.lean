import Mathlib.Data.List.Forall2
import Mathlib.Data.List.Perm.Basic

/-!
# Sorting by a comparison that is only known on some values

Comparisons of values of several kinds need not be transitive, so what a sort does is stated for the
values at hand.

* `PreorderOn le xs` — the comparison is a total preorder on the elements of the list.
* `Sorts le xs ys` — `ys` has the elements of `xs`, in order if there is one on them.
* `PreorderOn.pairwise_mergeSort`, `sorts_mergeSort` — the merge sort is such a sort.
-/

namespace ShardedQuery

variable {α β : Type}

/-- The comparison is a total preorder on the elements of a list. -/
structure PreorderOn (le : α → α → Bool) (xs : List α) : Prop where
  total : ∀ a ∈ xs, ∀ b ∈ xs, le a b = true ∨ le b a = true
  trans : ∀ a ∈ xs, ∀ b ∈ xs, ∀ c ∈ xs, le a b = true → le b c = true → le a c = true

instance (le : α → α → Bool) (xs : List α) : Decidable (PreorderOn le xs) :=
  decidable_of_iff
    ((∀ a ∈ xs, ∀ b ∈ xs, le a b = true ∨ le b a = true) ∧
      ∀ a ∈ xs, ∀ b ∈ xs, ∀ c ∈ xs, le a b = true → le b c = true → le a c = true)
    ⟨fun h => ⟨h.1, h.2⟩, fun h => ⟨h.total, h.trans⟩⟩

namespace PreorderOn

variable {le : α → α → Bool} {xs ys : List α}

theorem mono (h : PreorderOn le xs) (hs : ∀ y ∈ ys, y ∈ xs) : PreorderOn le ys where
  total a ha b hb := h.total a (hs a ha) b (hs b hb)
  trans a ha b hb c hc := h.trans a (hs a ha) b (hs b hb) c (hs c hc)

/-- A map that keeps the comparison keeps its laws. -/
theorem map {le' : β → β → Bool} {f : α → β} (h : PreorderOn le xs)
    (hf : ∀ a ∈ xs, ∀ b ∈ xs, le' (f a) (f b) = le a b) : PreorderOn le' (xs.map f) where
  total a ha b hb := by
    obtain ⟨x, hx, rfl⟩ := List.mem_map.mp ha
    obtain ⟨y, hy, rfl⟩ := List.mem_map.mp hb
    rw [hf x hx y hy, hf y hy x hx]
    exact h.total x hx y hy
  trans a ha b hb c hc := by
    obtain ⟨x, hx, rfl⟩ := List.mem_map.mp ha
    obtain ⟨y, hy, rfl⟩ := List.mem_map.mp hb
    obtain ⟨z, hz, rfl⟩ := List.mem_map.mp hc
    rw [hf x hx y hy, hf y hy z hz, hf x hx z hz]
    exact h.trans x hx y hy z hz

/-- **The merge sort is in order**, also if the comparison is lawful on the sorted list only. -/
theorem pairwise_mergeSort (h : PreorderOn le xs) :
    (xs.mergeSort le).Pairwise fun a b => le a b = true := by
  -- the library's lemma asks for laws on a whole type, so the list is sorted as one of its members
  let le' : {x // x ∈ xs} → {x // x ∈ xs} → Bool := fun a b => le a.1 b.1
  have hmap : (xs.attach.mergeSort le').map Subtype.val = xs.mergeSort le := by
    rw [List.map_mergeSort (s := le) (fun a _ b _ => rfl), List.attach_map_subtype_val]
  have hsorted : (xs.attach.mergeSort le').Pairwise fun a b => le' a b = true := by
    refine List.pairwise_mergeSort (fun a b c => h.trans a.1 a.2 b.1 b.2 c.1 c.2) ?_ xs.attach
    intro a b
    rw [Bool.or_eq_true]
    exact h.total a.1 a.2 b.1 b.2
  rw [← hmap, List.pairwise_map]
  exact hsorted

end PreorderOn

/-- A list with the same elements, in order if the comparison is a total preorder on them. -/
def Sorts (le : α → α → Bool) (xs ys : List α) : Prop :=
  ys.Perm xs ∧ (PreorderOn le xs → ys.Pairwise fun a b => le a b = true)

theorem sorts_mergeSort (le : α → α → Bool) (xs : List α) : Sorts le xs (xs.mergeSort le) :=
  ⟨List.mergeSort_perm xs le, fun h => h.pairwise_mergeSort⟩

theorem eq_map_of_forall₂ {f : α → β} {xs : List α} {ys : List β}
    (h : List.Forall₂ (fun x y => y = f x) xs ys) : ys = xs.map f := by
  induction h with
  | nil => rfl
  | cons hxy _ ih => rw [List.map_cons, hxy, ih]

/-- A list that is a rearrangement of mapped elements is the map of a rearrangement. -/
theorem exists_perm_of_perm_map {f : α → β} {xs : List α} {ys : List β} (h : ys.Perm (xs.map f)) :
    ∃ zs : List α, zs.Perm xs ∧ ys = zs.map f := by
  have hf : List.Forall₂ (fun b a => b = f a) (xs.map f) xs := by
    rw [List.forall₂_map_left_iff]
    exact List.forall₂_same.mpr fun _ _ => rfl
  obtain ⟨zs, hzs, hperm⟩ := List.perm_comp_forall₂ h hf
  exact ⟨zs, hperm, eq_map_of_forall₂ hzs.flip⟩

/-- A sort of mapped elements is the map of a sort. -/
theorem Sorts.exists_map {le : α → α → Bool} {le' : β → β → Bool} {f : α → β} {xs : List α}
    {ys : List β} (h : Sorts le' (xs.map f) ys)
    (hf : ∀ a ∈ xs, ∀ b ∈ xs, le' (f a) (f b) = le a b) (hle : PreorderOn le xs) :
    ∃ zs : List α, ys = zs.map f ∧ zs.Perm xs ∧ zs.Pairwise fun a b => le a b = true := by
  obtain ⟨zs, hperm, rfl⟩ := exists_perm_of_perm_map h.1
  refine ⟨zs, rfl, hperm, ?_⟩
  have hsorted := List.pairwise_map.mp (h.2 (hle.map hf))
  refine hsorted.imp_of_mem ?_
  intro a b ha hb hab
  rwa [hf a (hperm.mem_iff.mp ha) b (hperm.mem_iff.mp hb)] at hab

end ShardedQuery
