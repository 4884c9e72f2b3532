import ShardedQuery.Hash.Routing
import ShardedQuery.Proofs.Hash.Murmur3

/-!
# Every hash is the hash of some routing value

Neither hash function leaves out a hash, so what an index does with some hash it does with the
documents of some routing value.

* `Text.exists_codeUnits` — units below the surrogates are the code units of a string;
* `Text.littleEndian_injective` — units are known from their bytes;
* `Murmur3.exists_hash_eq` — two pairs of characters give every hash of the first function;
* `RoutingHash.toInt32_foldl_djbStep`, `RoutingHash.exists_digits` — the second function counts in
  base thirty-three, modulo `2 ^ 32`;
* `RoutingHash.hash_surjective` — both functions.
-/

namespace ShardedQuery

/-! ### Code units -/

namespace Text

theorem unitsOfChar_ofNat {n : Nat} (h : n < 0xD800) :
    unitsOfChar (Char.ofNat n) = [UInt16.ofNat n] := by
  have hvalid : n.isValidChar := .inl h
  have hchar : (Char.ofNat n).toNat = n := by
    rw [Char.ofNat, dif_pos hvalid]
    rfl
  simp only [unitsOfChar, hchar]
  rw [if_pos (by omega)]

/-- Units below the surrogates are the code units of a string. -/
theorem exists_codeUnits {units : List UInt16} (h : ∀ u ∈ units, u.toNat < 0xD800) :
    ∃ s, codeUnits s = units := by
  refine ⟨String.ofList (units.map fun u => Char.ofNat u.toNat), ?_⟩
  rw [codeUnits, String.toList_ofList]
  induction units with
  | nil => rfl
  | cons u units ih =>
    have hu : unitsOfChar (Char.ofNat u.toNat) = [u] := by
      rw [unitsOfChar_ofNat (h u List.mem_cons_self), UInt16.ofNat_toNat]
    rw [List.map_cons, List.flatMap_cons, hu, ih fun v hv => h v (List.mem_cons_of_mem u hv)]
    rfl

/-- A unit is known from its two bytes. -/
theorem eq_of_bytes_eq {u v : UInt16}
    (hlow : UInt8.ofNat (u.toNat % 256) = UInt8.ofNat (v.toNat % 256))
    (hhigh : UInt8.ofNat (u.toNat / 256) = UInt8.ofNat (v.toNat / 256)) : u = v := by
  have hu : u.toNat < 2 ^ 16 := u.toNat_lt
  have hv : v.toNat < 2 ^ 16 := v.toNat_lt
  have hlow' := congrArg UInt8.toNat hlow
  have hhigh' := congrArg UInt8.toNat hhigh
  simp only [UInt8.toNat_ofNat'] at hlow' hhigh'
  exact UInt16.toNat_inj.mp (by omega)

/-- Units are known from their bytes. -/
theorem littleEndian_injective : Function.Injective littleEndian := by
  intro us vs h
  induction us generalizing vs with
  | nil =>
    cases vs with
    | nil => rfl
    | cons v vs => cases h
  | cons u us ih =>
    cases vs with
    | nil => cases h
    | cons v vs =>
      simp only [littleEndian, List.flatMap_cons, List.cons_append, List.nil_append,
        List.cons.injEq] at h
      obtain ⟨hlow, hhigh, hrest⟩ := h
      rw [eq_of_bytes_eq hlow hhigh, ih hrest]

end Text

/-! ### The first function -/

namespace Murmur3

open Text

/-- Two code units that are characters of their own. -/
def unitPair (a : Fin 0xD800 × Fin 0xD800) : List UInt16 :=
  [UInt16.ofNat a.1, UInt16.ofNat a.2]

theorem toNat_unit_of_fin (n : Fin 0xD800) : (UInt16.ofNat n).toNat = n := by
  rw [UInt16.toNat_ofNat']
  omega

theorem toNat_lt_of_mem_unitPair {a : Fin 0xD800 × Fin 0xD800} :
    ∀ u ∈ unitPair a, u.toNat < 0xD800 := by
  simp only [unitPair, List.forall_mem_cons, toNat_unit_of_fin]
  exact ⟨a.1.isLt, a.2.isLt, by simp⟩

theorem unitPair_injective : Function.Injective unitPair := by
  intro a b h
  simp only [unitPair, List.cons.injEq, and_true] at h
  obtain ⟨hfirst, hsecond⟩ := h
  have hfirst' := congrArg UInt16.toNat hfirst
  have hsecond' := congrArg UInt16.toNat hsecond
  rw [toNat_unit_of_fin, toNat_unit_of_fin] at hfirst' hsecond'
  exact Prod.ext (Fin.ext hfirst') (Fin.ext hsecond')

/-- **The first function leaves out no hash.**  The pairs of characters are more than half of the
words, so four characters are enough for every hash. -/
theorem exists_hash_eq (seed target : UInt32) :
    ∃ value, hash seed (littleEndian (codeUnits value)) = target := by
  have hword : Function.Injective fun a => wordOfBytes (littleEndian (unitPair a)) :=
    fun a b h => unitPair_injective (littleEndian_injective (wordOfBytes_inj rfl le_rfl h))
  obtain ⟨last, hlast⟩ := finish_surjective target
  obtain ⟨a, b, hab⟩ := exists_absorb_absorb_eq (by simp) hword seed (last ^^^ 8)
  obtain ⟨value, hvalue⟩ := @exists_codeUnits (unitPair a ++ unitPair b) fun u hu =>
    (List.mem_append.mp hu).elim (toNat_lt_of_mem_unitPair u) (toNat_lt_of_mem_unitPair u)
  refine ⟨value, ?_⟩
  calc hash seed (littleEndian (codeUnits value))
      = finish (absorb (absorb seed (wordOfBytes (littleEndian (unitPair a))))
          (wordOfBytes (littleEndian (unitPair b))) ^^^ 8) := by rw [hvalue]; rfl
    _ = finish (last ^^^ 8 ^^^ 8) := by rw [hab]
    _ = target := by rw [UInt32.xor_assoc, UInt32.xor_self, UInt32.xor_zero, hlast]

end Murmur3

namespace RoutingHash

/-! ### The second function -/

/-- One step of the second function on a state that is cut to 32 bits already. -/
def djbStep32 (state : Int32) (unit : UInt16) : Int32 := state * 33 + Int32.ofNat unit.toNat

theorem toInt32_djbStep (state : Int64) (unit : UInt16) :
    (djbStep state unit).toInt32 = djbStep32 state.toInt32 unit := by
  have hshift : state <<< 5 = state * 32 := by
    apply Int64.toBitVec_inj.mp
    rw [Int64.toBitVec_mul, Int64.toBitVec_shiftLeft]
    exact BitVec.shiftLeft_eq_mul_twoPow _ _
  have hsum : state.toInt32 * 32 + state.toInt32 = state.toInt32 * 33 := by grind
  rw [djbStep, hshift, Int64.toInt32_add, Int64.toInt32_add, Int64.toInt32_mul, djbStep32, ← hsum]
  simp

/-- Cutting the state at the end is cutting it after every step. -/
theorem toInt32_foldl_djbStep (units : List UInt16) (state : Int64) :
    (units.foldl djbStep state).toInt32 = units.foldl djbStep32 state.toInt32 := by
  induction units generalizing state with
  | nil => rfl
  | cons u units ih => rw [List.foldl_cons, List.foldl_cons, ih, toInt32_djbStep]

/-- The units that are the digits of a number add it to a multiple of the state. -/
theorem exists_digits (k n : Nat) (hn : n < 33 ^ k) :
    ∃ units : List UInt16, (∀ u ∈ units, u.toNat < 33) ∧
      ∀ state, units.foldl djbStep32 state = state * 33 ^ k + Int32.ofNat n := by
  induction k generalizing n with
  | zero =>
    have hzero : n = 0 := by simpa using hn
    exact ⟨[], by simp, fun state => by simp [hzero]⟩
  | succ k ih =>
    obtain ⟨units, hsmall, hunits⟩ := ih (n / 33) (by rw [Nat.pow_succ] at hn; omega)
    have hdigit : (UInt16.ofNat (n % 33)).toNat = n % 33 := by
      rw [UInt16.toNat_ofNat']
      omega
    have hsplit : Int32.ofNat n = Int32.ofNat (n / 33) * 33 + Int32.ofNat (n % 33) := by
      conv_lhs => rw [← Nat.div_add_mod' n 33, Int32.ofNat_add, Int32.ofNat_mul]
      rfl
    refine ⟨units ++ [UInt16.ofNat (n % 33)], ?_, fun state => ?_⟩
    · intro u hu
      rcases List.mem_append.mp hu with hu | hu
      · exact hsmall u hu
      · rw [List.mem_singleton.mp hu, hdigit]
        omega
    · rw [List.foldl_append, hunits, List.foldl_cons, List.foldl_nil, djbStep32, hdigit, hsplit]
      grind

/-- **The second function leaves out no hash.**  Seven digits in base thirty-three are more than
thirty-two bits. -/
theorem exists_foldl_djbStep_eq (start : Int64) (target : Int32) :
    ∃ value, ((Text.codeUnits value).foldl djbStep start).toInt32 = target := by
  let rest := target - start.toInt32 * 33 ^ 7
  have hrest : rest.toBitVec.toNat < 33 ^ 7 := rest.toBitVec.isLt.trans (by decide)
  obtain ⟨units, hsmall, hunits⟩ := exists_digits 7 _ hrest
  obtain ⟨value, hvalue⟩ := Text.exists_codeUnits fun u hu => (hsmall u hu).trans (by decide)
  have hofNat : Int32.ofNat rest.toBitVec.toNat = rest := by
    apply Int32.toBitVec_inj.mp
    simp
  refine ⟨value, ?_⟩
  rw [hvalue, toInt32_foldl_djbStep, hunits, hofNat]
  grind

/-- **Every hash is the hash of a routing value**, for both functions. -/
theorem hash_surjective (f : RoutingHash) : Function.Surjective f.hash := by
  intro target
  cases f with
  | murmur3 =>
    obtain ⟨value, hvalue⟩ := Murmur3.exists_hash_eq 0 target.toUInt32
    exact ⟨value, by rw [hash, hvalue]; rfl⟩
  | djb => exact exists_foldl_djbStep_eq 5381 target

end RoutingHash

end ShardedQuery
