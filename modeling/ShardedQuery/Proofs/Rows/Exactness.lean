import ShardedQuery.Proofs.Number.Rounding
import ShardedQuery.Proofs.Rows.Comparing

/-!
# Integers and floats in one column

Beside a float an integer is rounded, so a float may be equal to two integers that are not equal to
each other.  And the two zeros of floats are equal, but only one of them is equal to the integer
zero.  These two are all that keeps the comparison of rows from being a total preorder.

* `Literal.Exact V` — neither of them happens among the values `V`.
* `Literal.Exact.orders` — then the values can be compared.
* `Literal.exact_of_eq_trans` — otherwise not even their equality is transitive.
* `ColumnOrder.compareBy_eq_iff` — rows are equal if they are so in every sorted column, whatever the
  directions and the places of nulls.
* `ColumnOrder.compareRows_preorder_iff` — **the comparison of rows is transitive if and only if the
  values of each sorted column are exact**; reflexive and total it always is.
* `ColumnOrder.compareRows_rounds` — the two ways in which it fails.
-/

namespace ShardedQuery

/-! ### Values -/

/-- No two integers among the values are rounded to the same float among them, and the integer zero
is among them with one zero of floats only. -/
structure Literal.Exact (V : Literal → Prop) : Prop where
  rounding : ∀ (m n : Int64) (x : Binary64), V (.int m) → V (.int n) → V (.float x) →
    Binary64.ofInt m.toInt = x → Binary64.ofInt n.toInt = x → m = n
  zeros : V (.int 0) → ∀ x y : Binary64, V (.float x) → V (.float y) →
    x.value = 0 → y.value = 0 → x = y

namespace Literal

theorem compare_self (a : Literal) : a.compare a = .eq := by
  cases a <;> exact Std.ReflOrd.compare_self

section

variable {m n : Int64} {x y : Binary64}

theorem compare_int_int_isLE : ((int m).compare (int n)).isLE ↔ m.toInt ≤ n.toInt :=
  Int.isLE_compare

theorem compare_float_float_isLE : ((float x).compare (float y)).isLE ↔ x.value ≤ y.value :=
  Int.isLE_compare

theorem compare_int_float_isLE :
    ((int n).compare (float x)).isLE ↔ (Binary64.ofInt n.toInt).rank ≤ x.rank :=
  Int.isLE_compare

theorem compare_float_int_isLE :
    ((float x).compare (int n)).isLE ↔ x.rank ≤ (Binary64.ofInt n.toInt).rank :=
  Int.isLE_compare

/-- An integer is equal to the float it is rounded to, and to no other. -/
theorem compare_int_float_eq_iff :
    (int n).compare (float x) = .eq ↔ Binary64.ofInt n.toInt = x :=
  Int.compare_eq_eq.trans ⟨Binary64.rank_injective, congrArg Binary64.rank⟩

end

variable {V : Literal → Prop}

namespace Exact

/-- An integer is not above another if a float is between them. -/
theorem int_le_int (h : Exact V) {m n : Int64} {x : Binary64} (hm : V (.int m)) (hn : V (.int n))
    (hx : V (.float x)) (hmx : (Binary64.ofInt m.toInt).rank ≤ x.rank)
    (hxn : x.rank ≤ (Binary64.ofInt n.toInt).rank) : m.toInt ≤ n.toInt := by
  by_contra hlt
  -- rounding keeps the order, so both integers have been rounded to this float
  have hnm := Binary64.rank_ofInt_mono (show n.toInt ≤ m.toInt by omega)
  have hmx' : Binary64.ofInt m.toInt = x := Binary64.rank_injective (by omega)
  have hnx' : Binary64.ofInt n.toInt = x := Binary64.rank_injective (by omega)
  have heq : m = n := h.rounding m n x hm hn hx hmx' hnx'
  exact hlt (heq ▸ Int.le_refl _)

/-- An integer that is not above a float is not above a numerically larger one. -/
theorem int_le_float (h : Exact V) {m : Int64} {x y : Binary64} (hm : V (.int m))
    (hx : V (.float x)) (hy : V (.float y)) (hmx : (Binary64.ofInt m.toInt).rank ≤ x.rank)
    (hxy : x.value ≤ y.value) : (Binary64.ofInt m.toInt).rank ≤ y.rank := by
  rcases Binary64.rank_le_of_value_le hxy with hle | ⟨hzero, hminus⟩
  · exact hmx.trans hle
  · by_contra hlt
    have hrank : (Binary64.ofInt m.toInt).rank = 0 := by omega
    have hm0 : m = 0 := Int64.toInt_inj.mp (Binary64.rank_ofInt_eq_zero_iff.mp hrank)
    have heq : x = y := h.zeros (hm0 ▸ hm) x y hx hy
      (Binary64.value_eq_zero_iff.mpr (.inl hzero)) (Binary64.value_eq_zero_iff.mpr (.inr hminus))
    rw [heq] at hzero
    omega

/-- A float is not above an integer if a numerically larger one is not. -/
theorem float_le_int {x y : Binary64} {n : Int64} (hxy : x.value ≤ y.value)
    (hyn : y.rank ≤ (Binary64.ofInt n.toInt).rank) : x.rank ≤ (Binary64.ofInt n.toInt).rank := by
  rcases Binary64.rank_le_of_value_le hxy with hle | ⟨hzero, hminus⟩
  · exact hle.trans hyn
  · have hne := Binary64.rank_ofInt_ne n.toInt
    omega

/-- **Exact values can be compared.** -/
theorem orders (h : Exact V) : Orders V := by
  refine Orders.of_trans fun a b c ha hb hc hkind hkind' hab hbc => ?_
  cases a <;> cases b <;> cases c
  case int.int.float m n x =>
    rw [compare_int_int_isLE] at hab
    rw [compare_int_float_isLE] at hbc ⊢
    exact (Binary64.rank_ofInt_mono hab).trans hbc
  case float.int.int x m n =>
    rw [compare_int_int_isLE] at hbc
    rw [compare_float_int_isLE] at hab ⊢
    exact hab.trans (Binary64.rank_ofInt_mono hbc)
  case float.int.float x m y =>
    rw [compare_float_int_isLE] at hab
    rw [compare_int_float_isLE] at hbc
    rw [compare_float_float_isLE]
    exact Binary64.value_le_of_rank_le (hab.trans hbc)
  case int.float.int m x n =>
    rw [compare_int_float_isLE] at hab
    rw [compare_float_int_isLE] at hbc
    rw [compare_int_int_isLE]
    exact h.int_le_int ha hc hb hab hbc
  case int.float.float m x y =>
    rw [compare_float_float_isLE] at hbc
    rw [compare_int_float_isLE] at hab ⊢
    exact h.int_le_float ha hb hc hab hbc
  case float.float.int x y n =>
    rw [compare_float_float_isLE] at hab
    rw [compare_float_int_isLE] at hbc ⊢
    exact float_le_int hab hbc
  -- the other values of one kind compare by the order of one type
  all_goals first
    | (cases hkind; done)
    | (cases hkind'; done)
    | exact Std.TransOrd.isLE_trans hab hbc

end Exact

/-- **Values whose equality is transitive are exact.** -/
theorem exact_of_eq_trans (h : ∀ a b c : Literal, V a → V b → V c → a.compare b = .eq →
    b.compare c = .eq → a.compare c = .eq) : Exact V where
  rounding m n x hm hn hx hmx hnx := by
    have hxn : (float x).compare (int n) = .eq := by
      rw [compare_swap, compare_int_float_eq_iff.mpr hnx]
      rfl
    have hmn := h _ _ _ hm hx hn (compare_int_float_eq_iff.mpr hmx) hxn
    exact Int64.toInt_inj.mp (Int.compare_eq_eq.mp hmn)
  zeros hzero x y hx hy hx0 hy0 := by
    -- with one of the zeros, the integer zero is equal to the other one as well
    have hrank : ∀ x y : Binary64, V (.float x) → V (.float y) → x.value = 0 → y.value = 0 →
        x.rank = 0 → y.rank = 0 := by
      intro x y hx hy hx0 hy0 hrank
      have hfirst : (int 0).compare (float x) = .eq :=
        compare_int_float_eq_iff.mpr (Binary64.rank_injective hrank.symm)
      have hboth : (float x).compare (float y) = .eq := Int.compare_eq_eq.mpr (hx0.trans hy0.symm)
      have hsecond := compare_int_float_eq_iff.mp (h _ _ _ hzero hx hy hfirst hboth)
      rw [← hsecond]
      rfl
    have hxy := hrank x y hx hy hx0 hy0
    have hyx := hrank y x hy hx hy0 hx0
    have hx1 := Binary64.value_eq_zero_iff.mp hx0
    have hy1 := Binary64.value_eq_zero_iff.mp hy0
    exact Binary64.rank_injective (by omega)

end Literal

/-! ### Rows -/

namespace ColumnOrder

/-- Neither the direction nor the place of nulls matters to the equality of two values. -/
theorem compareColumn_eq_iff (reverse nullsFirst : Bool) (a b : Option Literal) :
    compareColumn reverse nullsFirst a b = .eq ↔ compareColumn false false a b = .eq := by
  unfold compareColumn
  cases Literal.nonNull? a <;> cases Literal.nonNull? b
  case none.none => rfl
  case none.some | some.none => cases nullsFirst <;> simp
  case some.some x y => cases reverse <;> simp

/-- **Rows are equal if they are so in every sorted column.** -/
theorem compareBy_eq_iff (keys : List Nat) (reverse nullsFirst : List Bool) (a b : Row) :
    compareBy keys reverse nullsFirst a b = .eq ↔
      ∀ i ∈ keys, compareColumn false false a[i]? b[i]? = .eq := by
  induction keys generalizing reverse nullsFirst with
  | nil => simp [compareBy]
  | cons i keys ih =>
    rw [compareBy, Ordering.then_eq_eq, compareColumn_eq_iff, ih, List.forall_mem_cons]

theorem compareRows_self (o : ColumnOrder) (a : Row) : o.compareRows a a = .eq := by
  refine (compareBy_eq_iff o.keys o.reverse o.nullsFirst a a).mpr fun i _ => ?_
  unfold compareColumn
  cases Literal.nonNull? a[i]? with
  | none => rfl
  | some v => exact v.compare_self

/-- A row with a value in one column and nulls in those before it. -/
def cellRow (i : Nat) (v : Literal) : Row := List.replicate i .null ++ [v]

theorem getElem?_cellRow (i : Nat) (v : Literal) : (cellRow i v)[i]? = some v := by
  unfold cellRow
  rw [List.getElem?_append_right (by simp)]
  simp

theorem nonNull?_cellRow {i j : Nat} (h : j ≠ i) (v : Literal) :
    Literal.nonNull? (cellRow i v)[j]? = none := by
  unfold cellRow
  rcases Nat.lt_or_gt_of_ne h with hlt | hgt
  · rw [List.getElem?_append_left (by simpa using hlt), List.getElem?_replicate, if_pos hlt]
    rfl
  · rw [List.getElem?_eq_none (by simp; omega)]
    rfl

theorem inColumns_cellRow {V : Nat → Literal → Prop} {i : Nat} {v : Literal} (hv : V i v) :
    InColumns V (cellRow i v) := by
  intro j w hw
  by_cases h : j = i
  · subst h
    have hcell := Literal.eq_of_nonNull? hw
    rw [getElem?_cellRow] at hcell
    cases hcell
    exact hv
  · rw [nonNull?_cellRow h] at hw
    cases hw

/-- Sorted by its column, such rows are equal as their values are. -/
theorem compareRows_cellRow_eq_iff (o : ColumnOrder) {i : Nat} (hi : i ∈ o.keys) (v w : Literal) :
    o.compareRows (cellRow i v) (cellRow i w) = .eq ↔ v.compare w = .eq := by
  have hcolumn : ∀ j, compareColumn false false (cellRow i v)[j]? (cellRow i w)[j]? =
      if j = i then v.compare w else .eq := by
    intro j
    split
    · rename_i h
      rw [h, getElem?_cellRow, getElem?_cellRow]
      cases v <;> cases w <;> rfl
    · rename_i h
      unfold compareColumn
      rw [nonNull?_cellRow h, nonNull?_cellRow h]
  refine (compareBy_eq_iff o.keys o.reverse o.nullsFirst _ _).trans ⟨fun h => ?_, fun h j _ => ?_⟩
  · have hvalues := h i hi
    rwa [hcolumn, if_pos rfl] at hvalues
  · rw [hcolumn]
    split
    · exact h
    · rfl

section

variable {o : ColumnOrder} {V : Nat → Literal → Prop}

theorem eq_trans_of_isLE_trans
    (h : ∀ a b c : Row, InColumns V a → InColumns V b → InColumns V c →
      (o.compareRows a b).isLE → (o.compareRows b c).isLE → (o.compareRows a c).isLE)
    {a b c : Row} (ha : InColumns V a) (hb : InColumns V b) (hc : InColumns V c)
    (hab : o.compareRows a b = .eq) (hbc : o.compareRows b c = .eq) :
    o.compareRows a c = .eq := by
  have hba : o.compareRows b a = .eq := by rw [o.compareRows_swap a b, hab]; rfl
  have hcb : o.compareRows c b = .eq := by rw [o.compareRows_swap b c, hbc]; rfl
  have hac := h a b c ha hb hc (by rw [hab]; rfl) (by rw [hbc]; rfl)
  have hca := h c b a hc hb ha (by rw [hcb]; rfl) (by rw [hba]; rfl)
  rw [o.compareRows_swap a c] at hca
  exact Ordering.eq_eq_of_isLE_of_isLE_swap hac hca

/-- The values of a column are exact if the equality of rows is transitive. -/
theorem exact_of_eq_trans
    (h : ∀ a b c : Row, InColumns V a → InColumns V b → InColumns V c →
      o.compareRows a b = .eq → o.compareRows b c = .eq → o.compareRows a c = .eq)
    {i : Nat} (hi : i ∈ o.keys) : Literal.Exact (V i) := by
  refine Literal.exact_of_eq_trans fun u v w hu hv hw huv hvw => ?_
  have hrows := h _ _ _ (inColumns_cellRow hu) (inColumns_cellRow hv) (inColumns_cellRow hw)
  simp only [compareRows_cellRow_eq_iff o hi] at hrows
  exact hrows huv hvw

/-- Rows can be sorted by columns whose values are exact. -/
theorem preorderOn_of_exact (h : ∀ i ∈ o.keys, Literal.Exact (V i)) {rows : List Row}
    (hrows : ∀ row ∈ rows, InColumns V row) :
    PreorderOn (fun a b => (o.compareRows a b).isLE) rows := by
  have hcmp := transCmp_compareBy (fun i hi => (h i hi).orders) o.reverse o.nullsFirst
  exact preorderOn_of_transCmp hcmp (fun row => ⟨row.1, hrows row.1 row.2⟩) fun _ _ => rfl

end

/-- **The comparison of rows is a total preorder if and only if the sorted columns are exact.**  That
a row is equal to itself, and that two rows compare the other way around with the reverse result,
holds of all rows.  Transitive the comparison is, and so is the equality alone, exactly on rows
whose sorted columns are exact; such rows are then put in order. -/
theorem compareRows_preorder_iff (o : ColumnOrder) (V : Nat → Literal → Prop) :
    (∀ a : Row, o.compareRows a a = .eq) ∧
    (∀ a b : Row, o.compareRows b a = (o.compareRows a b).swap) ∧
    ((∀ a b c : Row, InColumns V a → InColumns V b → InColumns V c →
        (o.compareRows a b).isLE → (o.compareRows b c).isLE → (o.compareRows a c).isLE) ↔
      ∀ i ∈ o.keys, Literal.Exact (V i)) ∧
    ((∀ a b c : Row, InColumns V a → InColumns V b → InColumns V c →
        o.compareRows a b = .eq → o.compareRows b c = .eq → o.compareRows a c = .eq) ↔
      ∀ i ∈ o.keys, Literal.Exact (V i)) ∧
    ((∀ i ∈ o.keys, Literal.Exact (V i)) → ∀ rows : List Row, (∀ row ∈ rows, InColumns V row) →
      (o.sortRows rows).Pairwise fun a b => (o.compareRows a b).isLE) := by
  have htrans : (∀ i ∈ o.keys, Literal.Exact (V i)) → ∀ a b c : Row, InColumns V a →
      InColumns V b → InColumns V c →
      (o.compareRows a b).isLE → (o.compareRows b c).isLE → (o.compareRows a c).isLE := by
    intro h a b c ha hb hc
    have hrows : ∀ row ∈ [a, b, c], InColumns V row := by simp [ha, hb, hc]
    exact (preorderOn_of_exact h hrows).trans a (by simp) b (by simp) c (by simp)
  refine ⟨o.compareRows_self, o.compareRows_swap, ⟨fun h i hi => ?_, htrans⟩,
    ⟨fun h i hi => exact_of_eq_trans h hi, fun h a b c ha hb hc => ?_⟩, fun h rows hrows => ?_⟩
  · exact exact_of_eq_trans (fun a b c ha hb hc => eq_trans_of_isLE_trans h ha hb hc) hi
  · exact eq_trans_of_isLE_trans (htrans h) ha hb hc
  · exact (preorderOn_of_exact h hrows).pairwise_mergeSort

/-- Columns that are not exact: two integers are equal to one float but not to each other, and the
integer zero is equal to one of two zeros that are equal. -/
theorem compareRows_rounds :
    let o : ColumnOrder := ⟨[0], [], []⟩
    let float : Row := [.float ⟨0x4340000000000000, by decide⟩]
    let zero : Row := [.float ⟨0, by decide⟩]
    let minusZero : Row := [.float ⟨0x8000000000000000, by decide⟩]
    o.compareRows [.int 9007199254740993] float = .eq ∧
      o.compareRows float [.int 9007199254740992] = .eq ∧
      o.compareRows [.int 9007199254740993] [.int 9007199254740992] = .gt ∧
      o.compareRows [.int 0] zero = .eq ∧ o.compareRows zero minusZero = .eq ∧
      o.compareRows [.int 0] minusZero = .gt := by
  decide +kernel

end ColumnOrder

end ShardedQuery
