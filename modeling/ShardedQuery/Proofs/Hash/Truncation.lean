import Mathlib.Algebra.BigOperators.Fin
import Mathlib.Tactic.Ring
import ShardedQuery.Cluster.Index
import ShardedQuery.Proofs.Hash.Routing

/-!
# Cutting the second hash

The second hash function works on 64 bits and cuts its result to 32 at the end.  A long routing
value overflows the 64 bits many times over; all the same the hash is the number whose digits in
base thirty-three are the code units, cut once, and a state of 32 bits is enough to find it.

* `RoutingHash.numberOf` — the number that some units stand for.
* `RoutingHash.foldl_djbStep32` — steps on 32 bits find the number, cut.
* `RoutingHash.djbStep_cut`, `RoutingHash.shiftStep_eq` — two ways to keep the state on 32 bits are
  these steps.
* `RoutingHash.hash_truncates` — **nothing is lost by cutting**, at the end or after every step.
-/

namespace ShardedQuery.RoutingHash

/-! ### The number without overflow -/

/-- The number that some code units stand for: in base thirty-three, the first digit is the start
and the last one the last unit. -/
def numberOf (start : Nat) (units : List UInt16) : Nat :=
  start * 33 ^ units.length +
    ∑ i : Fin units.length, units[i].toNat * 33 ^ (units.length - (i + 1))

theorem numberOf_nil (start : Nat) : numberOf start [] = start := by simp [numberOf]

/-- The first unit is the last digit of a longer start. -/
theorem numberOf_cons (start : Nat) (u : UInt16) (units : List UInt16) :
    numberOf start (u :: units) = numberOf (start * 33 + u.toNat) units := by
  have hsplit :
      ∑ i : Fin (units.length + 1),
          ((u :: units)[i]).toNat * 33 ^ (units.length + 1 - (i + 1)) =
        u.toNat * 33 ^ units.length +
          ∑ i : Fin units.length, units[i].toNat * 33 ^ (units.length - (i + 1)) := by
    rw [Fin.sum_univ_succ]
    simp only [Fin.getElem_fin, Fin.val_zero, Fin.val_succ, List.getElem_cons_zero,
      List.getElem_cons_succ, Nat.zero_add, Nat.add_sub_cancel, Nat.add_sub_add_right]
  calc numberOf start (u :: units)
      = start * 33 ^ (units.length + 1) + (u.toNat * 33 ^ units.length +
          ∑ i : Fin units.length, units[i].toNat * 33 ^ (units.length - (i + 1))) := by
        -- the length below the sum is a successor by definition, but no rewriting sees it there
        rw [← hsplit]
        rfl
    _ = numberOf (start * 33 + u.toNat) units := by
        unfold numberOf
        ring

/-! ### Steps on 32 bits -/

/-- Steps on 32 bits find the number, cut. -/
theorem foldl_djbStep32 (start : Nat) (units : List UInt16) :
    units.foldl djbStep32 (Int32.ofNat start) = Int32.ofNat (numberOf start units) := by
  -- by induction on the units for every start, since a step makes the start longer by a digit
  induction units generalizing start with
  | nil => rw [numberOf_nil, List.foldl_nil]
  | cons u units ih =>
    have hstep : djbStep32 (Int32.ofNat start) u = Int32.ofNat (start * 33 + u.toNat) := by
      rw [djbStep32, Int32.ofNat_add, Int32.ofNat_mul]
      rfl
    rw [List.foldl_cons, hstep, ih, numberOf_cons]

/-- A step on 64 bits that is cut at once. -/
theorem djbStep_cut (state : Int32) (unit : UInt16) :
    (djbStep state.toInt64 unit).toInt32 = djbStep32 state unit := by
  rw [toInt32_djbStep, Int32.toInt32_toInt64]

/-- The step of the second function by the arithmetic of 32 bits, where the shift drops the bits
that leave them. -/
def shiftStep (state : Int32) (unit : UInt16) : Int32 :=
  (state <<< 5) + state + Int32.ofNat unit.toNat

theorem shiftStep_eq (state : Int32) (unit : UInt16) :
    shiftStep state unit = djbStep32 state unit := by
  have hshift : state <<< 5 = state * 32 := by
    apply Int32.toBitVec_inj.mp
    rw [Int32.toBitVec_mul, Int32.toBitVec_shiftLeft]
    exact BitVec.shiftLeft_eq_mul_twoPow _ _
  have hsum : state * 32 + state = state * 33 := by grind
  rw [shiftStep, djbStep32, hshift, hsum]

/-- The value of a signed word that is cut from a number. -/
theorem toInt_ofNat_cut (n : Nat) :
    (Int32.ofNat n).toInt =
      if n % 2 ^ 32 < 2 ^ 31 then ((n % 2 ^ 32 : Nat) : Int) else (n % 2 ^ 32 : Nat) - 2 ^ 32 := by
  rw [Int32.toInt_ofNat', Int.bmod_def]
  simp only [Int32.size]
  omega

/-! ### The hash -/

theorem hash_djb_eq (value : String) :
    djb.hash value = (Text.codeUnits value).foldl djbStep32 5381 :=
  toInt32_foldl_djbStep (Text.codeUnits value) 5381

/-- **The second hash function loses nothing by cutting its state only once.**  Let `n` be the
number that the code units of a routing value stand for after 5381.

* The hash is the signed word that `n` is modulo `2 ^ 32`.
* It is what the steps on 64 bits give if the state is cut to 32 bits after every one of them.
* It is what the arithmetic of 32 bits gives.
* So with the arithmetic of 32 bits an index has every document on the same shard. -/
theorem hash_truncates (value : String) :
    let units := Text.codeUnits value
    let n := numberOf 5381 units
    (djb.hash value).toInt =
        (if n % 2 ^ 32 < 2 ^ 31 then ((n % 2 ^ 32 : Nat) : Int) else (n % 2 ^ 32 : Nat) - 2 ^ 32) ∧
      djb.hash value =
        units.foldl (fun state unit => (djbStep state.toInt64 unit).toInt32) 5381 ∧
      djb.hash value = units.foldl shiftStep 5381 ∧
      ∀ (index : Index) (offset : UInt32), index.hash = .djb →
        index.shardOf value offset =
          index.shardOfHash (units.foldl shiftStep 5381 + offset.toInt32) := by
  intro units n
  have hsteps : djb.hash value = units.foldl shiftStep 5381 := by
    rw [funext₂ shiftStep_eq]
    exact hash_djb_eq value
  refine ⟨?_, ?_, hsteps, ?_⟩
  · rw [← toInt_ofNat_cut, ← foldl_djbStep32, hash_djb_eq]
    rfl
  · rw [funext₂ djbStep_cut]
    exact hash_djb_eq value
  · intro index offset hindex
    rw [Index.shardOf, hindex, hsteps]

/-- An index in seven shards that hashes with the second function. -/
def sevenths : Index where
  name := "t"
  shards := 7
  slots := 7
  partitionSize := 1
  hash := .djb
  policy := .floorMod
  shards_pos := by decide
  shards_dvd := Nat.dvd_refl _
  slots_pos := by decide
  partitionSize_pos := Nat.zero_lt_one

/-- A value that overflows 64 bits. -/
theorem hash_truncates_longValue :
    sevenths.hash = .djb ∧
      sevenths.shardOf "routing-value-0001" 0 =
        sevenths.shardOfHash ((Text.codeUnits "routing-value-0001").foldl shiftStep 5381 +
          UInt32.toInt32 0) := by
  obtain ⟨-, -, -, hshard⟩ := hash_truncates "routing-value-0001"
  exact ⟨rfl, hshard sevenths 0 rfl⟩

/-- The 64 bits overflow here, and the hash is negative. -/
example : djb.hash "routing-value-0001" = -166495163 := by decide +kernel

end ShardedQuery.RoutingHash
