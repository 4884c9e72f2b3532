import Mathlib.Algebra.Group.Nat.Defs
import Mathlib.Algebra.Ring.Int.Defs
import Mathlib.Data.List.Rotate
import ShardedQuery.Proofs.Routing.Cover

/-!
# The order in which copies are read

The active copies of a shard are turned by the seed, and the copies that are still being filled
follow them.  So the seed alone decides which copy is read, and consecutive seeds share the reads
out evenly.

* `ShardGroup.readable_eq_rotate` — the order is the active copies, rotated, and then the others.
* `ShardGroup.getElem?_readable` — the active copy at each place of the order.
* `ShardGroup.readable_perm` — the order has every readable copy as often as the shard has it.
* `ShardGroup.map_head?_readable` — consecutive seeds begin with the active copies in turn.
* `ShardGroup.readableInWords_eq` — signed words lead to the same order, if the number of active
  copies is one.
* `ShardGroup.readable_turns` — **the order is a rotation by the seed**, put together from these.
-/

namespace ShardedQuery

/-! ### Rotations -/

section Rotations

variable {α : Type} (xs : List α)

theorem rotateLeft_eq_rotate (n : Nat) : xs.rotateLeft n = xs.rotate n := by
  rw [List.rotate_eq_drop_append_take_mod]
  match xs with
  | [] => simp [List.rotateLeft]
  | [x] => simp [List.rotateLeft, Nat.mod_one]
  | x :: y :: rest => simp [List.rotateLeft]

/-- The element at a place of a rotation comes from so many places further on. -/
theorem getElem?_rotate_emod (turn : Int) {i : Nat} (hi : i < xs.length) :
    (xs.rotate (turn % xs.length).toNat)[i]? = xs[((turn + i) % xs.length).toNat]? := by
  have hne : (xs.length : Int) ≠ 0 := by omega
  have hplace : (i + (turn % xs.length).toNat) % xs.length = ((turn + i) % xs.length).toNat := by
    apply Int.natCast_inj.mp
    rw [Int.natCast_emod, Int.natCast_add, Int.toNat_of_nonneg (Int.emod_nonneg _ hne),
      Int.toNat_of_nonneg (Int.emod_nonneg _ hne), Int.add_emod_emod, Int.add_comm]
  rw [List.getElem?_rotate hi, hplace]

end Rotations

/-! ### Remainders of words -/

/-- The remainder that is never negative, by the arithmetic of signed words: their own remainder has
the sign of the first word. -/
def wordRemainder (a b : Int32) : Int32 :=
  let r := a % b
  if r < 0 then r + b.abs else r

theorem toInt_abs_of_nonneg {b : Int32} (h : 0 ≤ b.toInt) : b.abs.toInt = b.toInt := by
  have hsign : b.toBitVec.msb = false := by
    rw [BitVec.msb_eq_toInt]
    exact decide_eq_false (Int.not_lt.mpr h)
  have habs : b.abs = b := by
    apply Int32.toBitVec_inj.mp
    show b.toBitVec.abs = b.toBitVec
    rw [BitVec.abs, hsign]
    rfl
  rw [habs]

/-- It is the remainder of the numbers. -/
theorem toInt_wordRemainder (a : Int32) {b : Int32} (hb : 0 < b.toInt) :
    (wordRemainder a b).toInt = a.toInt % b.toInt := by
  have hlt : a.toInt.tmod b.toInt < b.toInt := Int.tmod_lt_of_pos _ hb
  have hgt : -b.toInt < a.toInt.tmod b.toInt := Int.lt_tmod_of_pos _ hb
  have hmax : b.toInt < 2 ^ 31 := b.toInt_lt
  have hmod : a.toInt % b.toInt = a.toInt.tmod b.toInt % b.toInt := by
    conv_lhs => rw [← Int.tmod_add_mul_tdiv a.toInt b.toInt, Int.add_mul_emod_self_left]
  have habs : b.abs.toInt = b.toInt := toInt_abs_of_nonneg (Int.le_of_lt hb)
  rw [hmod]
  unfold wordRemainder
  simp only [Int32.lt_iff_toInt_lt, Int32.toInt_mod, Int32.toInt_zero]
  by_cases hsign : a.toInt.tmod b.toInt < 0
  · -- a negative remainder and the divisor add up to less than the divisor, so nothing wraps around
    have hsum : 0 ≤ a.toInt.tmod b.toInt + b.toInt := by omega
    rw [if_pos hsign, Int32.toInt_add, Int32.toInt_mod, habs,
      Int.bmod_eq_of_le (by omega) (by omega), ← Int.add_emod_right,
      Int.emod_eq_of_lt hsum (by omega)]
  · rw [if_neg hsign, Int32.toInt_mod, Int.emod_eq_of_lt (by omega) hlt]

/-! ### States of copies -/

namespace ShardCopy

variable (c : ShardCopy)

/-- The readable copies that are active. -/
theorem active_isReadable : (c.isActive && c.isAssigned) = (c.isActive && c.isReadable) := by
  rcases c with ⟨node, -, state⟩
  cases node <;> cases state <;> rfl

/-- The other readable copies are still being filled. -/
theorem inactive_isReadable :
    (c.isInitializing && c.isAssigned) = (!c.isActive && c.isReadable) := by
  rcases c with ⟨node, -, state⟩
  cases node <;> cases state <;> rfl

/-- A copy can be read if it is on a node and not marked as unassigned. -/
theorem isReadable_iff : c.isReadable = true ↔ c.node.isSome ∧ c.state ≠ .unassigned := by
  unfold isReadable isAssigned isActive isInitializing
  cases c.state <;> simp

end ShardCopy

namespace ShardGroup

variable (g : ShardGroup) (seed : Int32)

/-! ### One order -/

/-- The active copies are turned by the seed, and those that are still being filled follow. -/
theorem readable_eq_rotate :
    g.readable seed =
      g.activeCopies.rotate (seed.toInt % g.activeCopies.length).toNat ++ g.initializingCopies := by
  rw [← rotateLeft_eq_rotate]
  rfl

/-- At each place before the number of active copies is the active copy that is so many places
after the one that the seed names. -/
theorem getElem?_readable {i : Nat} (hi : i < g.activeCopies.length) :
    (g.readable seed)[i]? =
      g.activeCopies[((seed.toInt + i) % g.activeCopies.length).toNat]? := by
  rw [readable_eq_rotate, List.getElem?_append_left (by rwa [List.length_rotate]),
    getElem?_rotate_emod g.activeCopies seed.toInt hi]

/-- Every copy that can be read is in the order as often as the shard has it, and no other. -/
theorem readable_perm : (g.readable seed).Perm (g.copies.filter (·.isReadable)) := by
  -- among the readable copies, the two parts of the order are the active ones and all others
  have hactive : g.activeCopies = (g.copies.filter (·.isReadable)).filter (·.isActive) := by
    rw [List.filter_filter, activeCopies]
    exact List.filter_congr fun c _ => c.active_isReadable
  have hinitializing :
      g.initializingCopies = (g.copies.filter (·.isReadable)).filter (!·.isActive) := by
    rw [List.filter_filter, initializingCopies]
    exact List.filter_congr fun c _ => c.inactive_isReadable
  calc g.readable seed
      = g.activeCopies.rotate _ ++ g.initializingCopies := g.readable_eq_rotate seed
    List.Perm _ (g.activeCopies ++ g.initializingCopies) :=
        (List.rotate_perm _ _).append_right _
    List.Perm _ (g.copies.filter (·.isReadable)) := by
        rw [hactive, hinitializing]
        exact List.filter_append_perm _ _

/-- The order begins with the active copy that the seed names. -/
theorem head?_readable (h : 0 < g.activeCopies.length) :
    (g.readable seed).head? = g.activeCopies[(seed.toInt % g.activeCopies.length).toNat]? := by
  have hfirst := g.getElem?_readable seed h
  rwa [Int.natCast_zero, Int.add_zero, ← List.head?_eq_getElem?] at hfirst

/-- A copy that is still being filled comes first only if none is active. -/
theorem activeCopies_eq_nil {c : ShardCopy} (hhead : (g.readable seed).head? = some c)
    (hstate : c.state = .initializing) : g.activeCopies = [] := by
  by_contra hne
  rw [g.head?_readable seed (List.length_pos_of_ne_nil hne)] at hhead
  have hactive := (mem_activeCopies.mp (List.mem_of_getElem? hhead)).2.1
  rw [ShardCopy.isActive, hstate] at hactive
  cases hactive

/-! ### The order in signed words -/

/-- The order by the arithmetic of signed words, to which the number of active copies is cut.
Without any there is nothing to turn, whatever the remainder by zero is. -/
def readableInWords : List ShardCopy :=
  let turn := (wordRemainder seed (Int32.ofNat g.activeCopies.length)).toInt.toNat
  g.activeCopies.rotateLeft turn ++ g.initializingCopies

/-- It is the same order as long as the number of active copies is a signed word. -/
theorem readableInWords_eq (h : g.activeCopies.length < 2 ^ 31) :
    g.readableInWords seed = g.readable seed := by
  unfold readableInWords readable
  by_cases hactive : g.activeCopies = []
  · rw [hactive]
    rfl
  · have hcount : (Int32.ofNat g.activeCopies.length).toInt = g.activeCopies.length :=
      Int32.toInt_ofNat_of_lt h
    have hpos : 0 < (Int32.ofNat g.activeCopies.length).toInt := by
      rw [hcount]
      exact Int.natCast_pos.mpr (List.length_pos_of_ne_nil hactive)
    rw [toInt_wordRemainder seed hpos, hcount]

/-! ### Consecutive seeds -/

/-- Consecutive seeds, as many as there are active copies, begin with these copies in turn. -/
theorem map_head?_readable {first : Int} (hlow : -2 ^ 31 ≤ first)
    (hhigh : first + g.activeCopies.length ≤ 2 ^ 31) :
    (List.range g.activeCopies.length).map
        (fun i : Nat => (g.readable (Int32.ofInt (first + i))).head?) =
      (g.activeCopies.rotate (first % g.activeCopies.length).toNat).map some := by
  apply List.ext_getElem
  · simp
  · intro i hi hi'
    rw [List.length_map, List.length_range] at hi
    have hpos : 0 < g.activeCopies.length := by omega
    have hseed : (Int32.ofInt (first + i)).toInt = first + i :=
      Int32.toInt_ofInt_of_le (by omega) (by omega)
    rw [List.getElem_map, List.getElem_range, List.getElem_map, g.head?_readable _ hpos, hseed,
      ← getElem?_rotate_emod g.activeCopies first hi, List.getElem?_eq_getElem]

/-- **The order in which copies are read is a rotation by the seed.**  Let `n` be the number of the
active copies of a shard, those that are on a node and started or relocating.

* The order is these copies, rotated to the left by the remainder of the seed by `n`, and then the
  copies that are on a node and initializing; both as they were added.
* At each place before `n` is the active copy whose place is the remainder of that place plus the
  seed.
* The order has every copy that can be read as often as the shard has it, and no other.
* All its copies are on a node, and none is unassigned.
* An initializing copy comes first only if there is no active one.
* Any `n` consecutive seeds begin with each active copy once.
* Computed with signed words the order is the same, as long as `n` is one.

The number of copies is not bounded. -/
theorem readable_turns (g : ShardGroup) :
    let n := g.activeCopies.length
    (∀ seed, g.readable seed =
      g.activeCopies.rotate (seed.toInt % n).toNat ++ g.initializingCopies) ∧
    (∀ seed (i : Nat), i < n →
      (g.readable seed)[i]? = g.activeCopies[((seed.toInt + i) % n).toNat]?) ∧
    (∀ seed, (g.readable seed).Perm (g.copies.filter (·.isReadable))) ∧
    (∀ seed, ∀ c ∈ g.readable seed, c.node.isSome ∧ c.state ≠ .unassigned) ∧
    (∀ seed c, (g.readable seed).head? = some c → c.state = .initializing →
      g.activeCopies = []) ∧
    (∀ first : Int, -2 ^ 31 ≤ first → first + n ≤ 2 ^ 31 →
      ((List.range n).map fun i : Nat => (g.readable (Int32.ofInt (first + i))).head?).Perm
        (g.activeCopies.map some)) ∧
    (n < 2 ^ 31 → ∀ seed, g.readableInWords seed = g.readable seed) := by
  intro n
  refine ⟨g.readable_eq_rotate, fun seed i hi => g.getElem?_readable seed hi, g.readable_perm, ?_,
    fun seed c => g.activeCopies_eq_nil seed, ?_, fun hn seed => g.readableInWords_eq seed hn⟩
  · intro seed c hc
    exact c.isReadable_iff.mp (mem_readable.mp hc).2
  · intro first hlow hhigh
    rw [g.map_head?_readable hlow hhigh]
    exact (List.rotate_perm _ _).map some

/-- A shard with three active copies, two of them alike, and a copy in each of the other states;
one that is started is on no node. -/
def threeActive : ShardGroup where
  index := "t"
  shard := 0
  copies :=
    [⟨some "n1", true, .started⟩, ⟨some "n2", false, .initializing⟩,
      ⟨some "n3", false, .relocating⟩, ⟨none, false, .unassigned⟩, ⟨none, false, .started⟩,
      ⟨some "n3", false, .relocating⟩]

/-- A shard with no active copy on a node. -/
def noneActive : ShardGroup where
  index := "t"
  shard := 1
  copies := [⟨none, true, .started⟩, ⟨some "n2", false, .initializing⟩]

/-- The seeds from minus one to one begin with each of the three active copies once, the order by a
negative seed is the same in words, and an initializing copy comes first where none is active. -/
theorem readable_turns_threeActive :
    threeActive.activeCopies.length = 3 ∧
      (threeActive.readable (-1))[1]? = threeActive.activeCopies[0]? ∧
      ((List.range 3).map fun i : Nat => (threeActive.readable (Int32.ofInt (-1 + i))).head?).Perm
        (threeActive.activeCopies.map some) ∧
      threeActive.readableInWords (-1) = threeActive.readable (-1) ∧
      (noneActive.readable 5).head? = some ⟨some "n2", false, .initializing⟩ ∧
      noneActive.activeCopies = [] := by
  have hlength : threeActive.activeCopies.length = 3 := by decide
  have hhead : (noneActive.readable 5).head? = some ⟨some "n2", false, .initializing⟩ := by decide
  obtain ⟨-, hplace, -, -, -, hseeds, hwords⟩ := readable_turns threeActive
  simp only [hlength] at hplace hseeds hwords
  obtain ⟨-, -, -, -, hnone, -⟩ := readable_turns noneActive
  exact ⟨hlength, hplace (-1) 1 (by decide), hseeds (-1) (by decide) (by decide),
    hwords (by decide) (-1), hhead, hnone 5 _ hhead rfl⟩

/-- The order by the seed minus one. -/
example : (threeActive.readable (-1)).map (·.node) =
    [some "n3", some "n1", some "n3", some "n2"] := by decide

end ShardGroup

end ShardedQuery
