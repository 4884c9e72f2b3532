import ShardedQuery.Execution.TopN
import ShardedQuery.Proofs.Rows.Sorting

/-!
# When rows can be compared

An integer is compared with a float as a float, which may make it equal to another integer.  So the
comparison of values is an order on some values only, and so is that of rows.

* `Literal.compare_swap`, `ColumnOrder.compareRows_swap` — the other way around, the comparison gives
  the reverse, on all values and on all rows.
* `Literal.Orders V` — the comparison of values is a total preorder on the values `V`.
* `ColumnOrder.transCmp_compareBy` — **then so is that of rows with such values in the sorted
  columns**, by whatever columns, directions and places of nulls.
* `Literal.Orders.compareBy` — the same for rows all of whose values are among `V`.
* `Literal.orders_floatFree` — it is one on all values but floats.
-/

namespace ShardedQuery

/-- The comparison of values is a total preorder on some of them. -/
abbrev Literal.Orders (V : Literal → Prop) : Prop :=
  Std.TransCmp fun a b : {v : Literal // V v} => a.1.compare b.1

/-- A comparison by something that is compared. -/
theorem transCmp_on {α β : Type} {cmp : β → β → Ordering} (h : Std.TransCmp cmp) (f : α → β) :
    Std.TransCmp fun a b => cmp (f a) (f b) where
  eq_swap := h.eq_swap
  isLE_trans := h.isLE_trans

/-- The elements of a list can be sorted by something that is compared. -/
theorem preorderOn_of_transCmp {α β : Type} {cmp : β → β → Ordering} (h : Std.TransCmp cmp)
    {le : α → α → Bool} {xs : List α} (f : {x // x ∈ xs} → β)
    (hf : ∀ a b, le a.1 b.1 = (cmp (f a) (f b)).isLE) : PreorderOn le xs where
  total a ha b hb := by
    rw [hf ⟨a, ha⟩ ⟨b, hb⟩, hf ⟨b, hb⟩ ⟨a, ha⟩, h.eq_swap (a := f ⟨b, hb⟩)]
    cases cmp (f ⟨a, ha⟩) (f ⟨b, hb⟩) <;> simp
  trans a ha b hb c hc := by
    rw [hf ⟨a, ha⟩ ⟨b, hb⟩, hf ⟨b, hb⟩ ⟨c, hc⟩, hf ⟨a, ha⟩ ⟨c, hc⟩]
    exact h.isLE_trans

/-! ### The other way around -/

/-- Two values compare the other way around with the reverse result. -/
theorem Literal.compare_swap (a b : Literal) : b.compare a = (a.compare b).swap := by
  -- values of different kinds compare as the ranks of their kinds do
  cases a <;> cases b <;> exact Std.OrientedOrd.eq_swap

namespace ColumnOrder

theorem compareColumn_swap (reverse nullsFirst : Bool) (a b : Option Literal) :
    compareColumn reverse nullsFirst b a = (compareColumn reverse nullsFirst a b).swap := by
  unfold compareColumn
  cases Literal.nonNull? a <;> cases Literal.nonNull? b
  case none.none => rfl
  case none.some | some.none => cases nullsFirst <;> rfl
  case some.some x y =>
    have hvalues := Literal.compare_swap x y
    cases reverse with
    | false => exact hvalues
    | true => exact congrArg Ordering.swap hvalues

theorem compareBy_swap (keys : List Nat) (reverse nullsFirst : List Bool) (a b : Row) :
    compareBy keys reverse nullsFirst b a = (compareBy keys reverse nullsFirst a b).swap := by
  induction keys generalizing reverse nullsFirst with
  | nil => rfl
  | cons i keys ih =>
    rw [compareBy, compareBy, Ordering.swap_then, ih]
    congr 1
    exact compareColumn_swap _ _ a[i]? b[i]?

/-- Two rows compare the other way around with the reverse result. -/
theorem compareRows_swap (o : ColumnOrder) (a b : Row) :
    o.compareRows b a = (o.compareRows a b).swap :=
  compareBy_swap o.keys o.reverse o.nullsFirst a b

end ColumnOrder

/-! ### Values that can be compared -/

namespace Literal

theorem kindRank_le_of_isLE {a b : Literal} (h : (a.compare b).isLE) :
    a.kindRank ≤ b.kindRank := by
  cases a <;> cases b <;> first | exact Nat.le_refl _ | exact Nat.isLE_compare.mp h

theorem isLE_of_kindRank_lt {a b : Literal} (h : a.kindRank < b.kindRank) :
    (a.compare b).isLE := by
  cases a <;> cases b <;> first | rfl | exact absurd h (Nat.not_lt.mpr (by simp [kindRank]))

end Literal

namespace Literal.Orders

variable {V : Literal → Prop}

/-- Only the transitivity has to be shown, and only for values of one kind. -/
theorem of_trans (h : ∀ a b c : Literal, V a → V b → V c → a.kindRank = b.kindRank →
    b.kindRank = c.kindRank → (a.compare b).isLE → (b.compare c).isLE → (a.compare c).isLE) :
    Orders V where
  eq_swap {a b} := compare_swap b.1 a.1
  isLE_trans {a b c} hab hbc := by
    have hranks := kindRank_le_of_isLE hab
    have hranks' := kindRank_le_of_isLE hbc
    rcases Nat.lt_or_eq_of_le (Nat.le_trans hranks hranks') with hlt | heq
    · exact isLE_of_kindRank_lt hlt
    · exact h a.1 b.1 c.1 a.2 b.2 c.2 (by omega) (by omega) hab hbc

/-- A sorted column may be in the reverse order. -/
theorem directed (h : Orders V) (reverse : Bool) : Std.TransCmp fun a b : {v : Literal // V v} =>
    if reverse then (a.1.compare b.1).swap else a.1.compare b.1 := by
  cases reverse with
  | false => exact h
  | true =>
    have hopposite : Std.TransCmp fun a b : {v : Literal // V v} => b.1.compare a.1 := h.opposite
    have hswap : (fun a b : {v : Literal // V v} => (a.1.compare b.1).swap) =
        fun a b => b.1.compare a.1 := by
      funext a b
      exact (compare_swap a.1 b.1).symm
    rw [← hswap] at hopposite
    exact hopposite

/-- Nulls and missing values come together, before or after all others. -/
theorem compareColumn (h : Orders V) (reverse nullsFirst : Bool) :
    Std.TransCmp fun a b : {o : Option Literal // ∀ v, nonNull? o = some v → V v} =>
      ColumnOrder.compareColumn reverse nullsFirst a.1 b.1 := by
  refine { eq_swap := ColumnOrder.compareColumn_swap _ _ _ _, isLE_trans := ?_ }
  intro a b c hab hbc
  unfold ColumnOrder.compareColumn at hab hbc ⊢
  cases ha : nonNull? a.1 <;> cases hb : nonNull? b.1 <;> cases hc : nonNull? c.1 <;>
    simp only [ha, hb, hc] at hab hbc ⊢
  case none.none.none => rfl
  case none.none.some => exact hbc
  case none.some.some => exact hab
  case some.none.none => exact hab
  case some.some.none => exact hbc
  case none.some.none => rfl
  case some.none.some => cases nullsFirst <;> contradiction
  case some.some.some x y z =>
    exact (h.directed reverse).isLE_trans (a := ⟨x, a.2 x ha⟩) (b := ⟨y, b.2 y hb⟩)
      (c := ⟨z, c.2 z hc⟩) hab hbc

end Literal.Orders

/-! ### Rows that can be compared -/

/-- What stands in a column of the row and is not null is among the values of the column. -/
def InColumns (V : Nat → Literal → Prop) (row : Row) : Prop :=
  ∀ i v, Literal.nonNull? row[i]? = some v → V i v

/-- **Rows can be compared by columns whose values can be.** -/
theorem ColumnOrder.transCmp_compareBy {V : Nat → Literal → Prop} {keys : List Nat}
    (h : ∀ i ∈ keys, Literal.Orders (V i)) (reverse nullsFirst : List Bool) :
    Std.TransCmp fun a b : {row : Row // InColumns V row} =>
      compareBy keys reverse nullsFirst a.1 b.1 := by
  induction keys generalizing reverse nullsFirst with
  | nil => exact { eq_swap := rfl, isLE_trans := fun _ _ => rfl }
  | cons i keys ih =>
    -- the first column decides, and where it does not the others do
    let descending := reverse.head?.getD false
    let first := nullsFirst.head?.getD descending
    have hcolumn := transCmp_on ((h i List.mem_cons_self).compareColumn descending first)
      fun row : {row : Row // InColumns V row} => ⟨row.1[i]?, row.2 i⟩
    have hothers := ih (fun j hj => h j (List.mem_cons_of_mem i hj)) reverse.tail nullsFirst.tail
    show Std.TransCmp (compareLex
      (fun a b : {row : Row // InColumns V row} =>
        ColumnOrder.compareColumn descending first a.1[i]? b.1[i]?)
      fun a b => ColumnOrder.compareBy keys reverse.tail nullsFirst.tail a.1 b.1)
    infer_instance

namespace Literal

theorem eq_of_nonNull? {o : Option Literal} {v : Literal} (h : nonNull? o = some v) :
    o = some v := by
  unfold nonNull? at h
  split at h
  · cases h
  · cases h
  · exact h

/-- Rows whose values are among those can be compared, by whatever columns. -/
theorem Orders.compareBy {V : Literal → Prop} (h : Orders V) (keys : List Nat)
    (reverse nullsFirst : List Bool) : Std.TransCmp fun a b : {row : Row // ∀ v ∈ row, V v} =>
      ColumnOrder.compareBy keys reverse nullsFirst a.1 b.1 := by
  have hcolumns : ∀ i ∈ keys, Orders V := fun _ _ => h
  exact transCmp_on (ColumnOrder.transCmp_compareBy hcolumns reverse nullsFirst)
    fun row : {row : Row // ∀ v ∈ row, V v} =>
      ⟨row.1, fun _ v hv => row.2 v (List.mem_of_getElem? (eq_of_nonNull? hv))⟩

/-- The value is no float. -/
def FloatFree : Literal → Prop
  | float _ => False
  | null | bool _ | int _ | string _ => True

/-- **The comparison is a total preorder on all values but floats.** -/
theorem orders_floatFree : Orders FloatFree := by
  refine Orders.of_trans fun a b c ha hb hc hkind hkind' hab hbc => ?_
  cases a <;> cases b <;> cases c <;>
    first | contradiction | exact Std.TransOrd.isLE_trans hab hbc | rfl

end Literal

end ShardedQuery
