import Mathlib.Data.Fintype.EquivFin
import Mathlib.Data.Fintype.Prod
import Mathlib.Data.Fintype.Sum
import Mathlib.Data.Nat.Digits.Lemmas
import ShardedQuery.Hash.Murmur3

/-!
# The steps of Murmur3 lose nothing

Every step of the hash can be undone: a rotation, a product with an odd factor, an exclusive or with
a shifted copy.  So no two states are mixed into one, and no two groups either.

* `rotateLeft_injective`, `mul_injective`, `xorShift_injective` — the operations on words;
* `Murmur3.wordOfBytes_inj` — the reading of a group;
* `Murmur3.scramble_injective`, `Murmur3.absorb_injective`, `Murmur3.absorb_injective_group`,
  `Murmur3.finish_injective` — the steps;
* `Murmur3.exists_absorb_absorb_eq` — two groups from more than half of the words lead from any
  state to any other.
-/

namespace ShardedQuery

/-! ### Operations on words -/

/-- A rotated word has at each place the bit from `k` places below, around the end. -/
theorem getLsbD_rotateLeft (w k : UInt32) (hk : k.toNat < 32) {i : Nat} (hi : i < 32) :
    (rotateLeft w k).toBitVec.getLsbD i = w.toBitVec.getLsbD ((i + 32 - k.toNat) % 32) := by
  have hleft : k.toNat % 32 = k.toNat := Nat.mod_eq_of_lt hk
  have hright : (32 - k).toNat = 32 - k.toNat := by
    apply UInt32.toNat_sub_of_le
    simpa [UInt32.le_iff_toNat_le] using hk.le
  have hwidth : BitVec.toNat (32 : BitVec 32) = 32 := rfl
  simp only [rotateLeft, UInt32.toBitVec_or, UInt32.toBitVec_shiftLeft, UInt32.toBitVec_shiftRight,
    BitVec.getLsbD_or, BitVec.shiftLeft_eq', BitVec.ushiftRight_eq', BitVec.getLsbD_shiftLeft,
    BitVec.getLsbD_ushiftRight, BitVec.toNat_umod, UInt32.toNat_toBitVec, hwidth, hleft, hright]
  by_cases hlow : i < k.toNat
  · -- The bit has left at the top.
    have hplace : (32 - k.toNat) % 32 + i = (i + 32 - k.toNat) % 32 := by omega
    simp [hlow, hplace]
  · have hplace : i - k.toNat = (i + 32 - k.toNat) % 32 := by omega
    by_cases hzero : k.toNat = 0
    · simp [hzero, hi, Nat.mod_eq_of_lt hi]
    · have hout : 32 ≤ (32 - k.toNat) % 32 + i := by omega
      simp [hlow, hi, hplace, BitVec.getLsbD_of_ge _ _ hout]

/-- A word is known from its rotation. -/
theorem rotateLeft_injective {k : UInt32} (hk : k.toNat < 32) :
    Function.Injective fun w => rotateLeft w k := by
  intro v w h
  apply UInt32.toBitVec_inj.mp
  apply BitVec.eq_of_getLsbD_eq
  intro i hi
  have hback : ((i + k.toNat) % 32 + 32 - k.toNat) % 32 = i := by omega
  have hbit := congrArg (fun x : UInt32 => x.toBitVec.getLsbD ((i + k.toNat) % 32)) h
  simpa only [getLsbD_rotateLeft _ _ hk (Nat.mod_lt _ (by decide)), hback] using hbit

/-- A factor with an inverse keeps words apart. -/
theorem mul_injective {factor : UInt32} (inverse : UInt32) (h : factor * inverse = 1) :
    Function.Injective fun w => w * factor := by
  intro v w hvw
  have hcancel := congrArg (fun x => x * inverse) hvw
  simpa only [UInt32.mul_assoc, h, UInt32.mul_one] using hcancel

/-- A word is known from its exclusive or with a shifted copy. -/
theorem xorShift_injective {s : UInt32} (hs : 0 < s.toNat) (hs' : s.toNat < 32) :
    Function.Injective fun w : UInt32 => w ^^^ (w >>> s) := by
  intro v w h
  -- The difference of two such words is its own shift, which only zero is.
  have hdiff : v ^^^ w = (v ^^^ w) >>> s := by
    apply UInt32.xor_eq_zero_iff.mp
    calc v ^^^ w ^^^ (v ^^^ w) >>> s
        = (v ^^^ v >>> s) ^^^ (w ^^^ w >>> s) := by rw [UInt32.shiftRight_xor]; ac_rfl
      _ = 0 := UInt32.xor_eq_zero_iff.mpr h
  have hshift : (v ^^^ w).toNat = (v ^^^ w).toNat / 2 ^ s.toNat := by
    have := congrArg UInt32.toNat hdiff
    rwa [UInt32.toNat_shiftRight, Nat.mod_eq_of_lt hs', Nat.shiftRight_eq_div_pow] at this
  have hpow : 1 < 2 ^ s.toNat := Nat.one_lt_two_pow (by omega)
  have hzero : (v ^^^ w).toNat = 0 := by
    by_contra hne
    exact (Nat.div_lt_self (by omega) hpow).ne hshift.symm
  exact UInt32.xor_eq_zero_iff.mp (UInt32.toNat_inj.mp hzero)

namespace Murmur3

/-! ### Groups -/

theorem toNat_lt_of_mem {bytes : List UInt8} : ∀ d ∈ bytes.map (·.toNat), d < 256 := by
  intro d hd
  obtain ⟨b, -, rfl⟩ := List.mem_map.mp hd
  exact b.toNat_lt

/-- The bytes of a group are the digits of its word. -/
theorem toNat_wordOfBytes {bytes : List UInt8} (h : bytes.length ≤ 4) :
    (wordOfBytes bytes).toNat = Nat.ofDigits 256 (bytes.map (·.toNat)) := by
  induction bytes with
  | nil => rfl
  | cons b rest ih =>
    have hlength : rest.length ≤ 3 := Nat.le_of_succ_le_succ h
    have hb : b.toNat < 2 ^ 8 := b.toNat_lt
    -- The shift drops nothing, as the rest has at most three bytes.
    have hrest : (wordOfBytes rest).toNat < 2 ^ 24 := by
      rw [ih (by omega)]
      calc Nat.ofDigits 256 (rest.map (·.toNat))
          < 256 ^ (rest.map (·.toNat)).length :=
            Nat.ofDigits_lt_base_pow_length (by decide) toNat_lt_of_mem
        _ ≤ 256 ^ 3 := Nat.pow_le_pow_right (by decide) (by simpa using hlength)
        _ = 2 ^ 24 := by decide
    calc (wordOfBytes (b :: rest)).toNat
        = b.toNat ||| (wordOfBytes rest).toNat <<< 8 % 2 ^ 32 := by simp [wordOfBytes]
      _ = b.toNat ||| 2 ^ 8 * (wordOfBytes rest).toNat := by
          rw [Nat.shiftLeft_eq, Nat.mul_comm, Nat.mod_eq_of_lt (by omega)]
      _ = b.toNat + 256 * (wordOfBytes rest).toNat := by
          rw [Nat.or_comm, ← Nat.two_pow_add_eq_or_of_lt hb, Nat.add_comm]
      _ = Nat.ofDigits 256 ((b :: rest).map (·.toNat)) := by
          rw [List.map_cons, Nat.ofDigits_cons, ih (by omega)]

/-- The bytes of a group are known from its word and their number. -/
theorem wordOfBytes_inj {as bs : List UInt8} (hlength : as.length = bs.length)
    (h : as.length ≤ 4) (hword : wordOfBytes as = wordOfBytes bs) : as = bs := by
  have hdigits := congrArg UInt32.toNat hword
  rw [toNat_wordOfBytes h, toNat_wordOfBytes (hlength ▸ h)] at hdigits
  have hmap := Nat.ofDigits_inj_of_len_eq (by decide) (by simpa using hlength)
    toNat_lt_of_mem toNat_lt_of_mem hdigits
  exact List.map_injective_iff.mpr (fun _ _ => UInt8.toNat_inj.mp) hmap

/-! ### Steps -/

/-- A group is known from its scrambled word. -/
theorem scramble_injective : Function.Injective scramble :=
  (mul_injective 0x56ED309B (by decide)).comp
    ((rotateLeft_injective (k := 15) (by decide)).comp (mul_injective 0xDEE13BB1 (by decide)))

/-- What is done to the state once the scrambled group is in it. -/
theorem spread_injective : Function.Injective fun h => rotateLeft h 13 * 5 + 0xE6546B64 := by
  intro v w h
  have hproduct : rotateLeft v 13 * 5 = rotateLeft w 13 * 5 := (UInt32.add_left_inj _).mp h
  exact rotateLeft_injective (k := 13) (by decide) (mul_injective 0xCCCCCCCD (by decide) hproduct)

/-- A group does not mix two states into one. -/
theorem absorb_injective (k : UInt32) : Function.Injective fun h => absorb h k := by
  intro v w h
  exact (UInt32.xor_left_inj _).mp (spread_injective h)

/-- A state does not mix two groups into one. -/
theorem absorb_injective_group (h : UInt32) : Function.Injective (absorb h) := by
  intro k l hkl
  exact scramble_injective ((UInt32.xor_right_inj _).mp (spread_injective hkl))

/-- The last state is known from the hash. -/
theorem finish_injective : Function.Injective finish :=
  (xorShift_injective (s := 16) (by decide) (by decide)).comp
    ((mul_injective 0x7ED1B41D (by decide)).comp
      ((xorShift_injective (s := 13) (by decide) (by decide)).comp
        ((mul_injective 0xA5CB9243 (by decide)).comp
          (xorShift_injective (s := 16) (by decide) (by decide)))))

/-! ### States that can be reached -/

instance finite_uint32 : Finite UInt32 :=
  Finite.of_injective UInt32.toFin fun _ _ h => UInt32.toFin_inj.mp h

/-- Every word is a hash. -/
theorem finish_surjective : Function.Surjective finish :=
  Finite.injective_iff_surjective.mp finish_injective

/-- Two families of words that share no word fit into the words together. -/
theorem exists_eq_of_injective {α : Type} [Fintype α] (hcard : 2 ^ 32 < 2 * Fintype.card α)
    {f g : α → UInt32} (hf : Function.Injective f) (hg : Function.Injective g) :
    ∃ a b, f a = g b := by
  by_contra hnone
  have hinj : Function.Injective (Sum.elim f g) := hf.sumElim hg fun a b h => hnone ⟨a, b, h⟩
  have hfin : Function.Injective fun x => (Sum.elim f g x).toFin :=
    fun x y h => hinj (UInt32.toFin_inj.mp h)
  have hle := Fintype.card_le_of_injective _ hfin
  rw [Fintype.card_sum, Fintype.card_fin] at hle
  have hsize : UInt32.size = 2 ^ 32 := rfl
  omega

/-- **Two groups lead anywhere.**  With more than half of the words to choose them from, two groups
lead from any state to any other: the states after the first and the states before the second are
too many to be apart. -/
theorem exists_absorb_absorb_eq {α : Type} [Fintype α] (hcard : 2 ^ 32 < 2 * Fintype.card α)
    {word : α → UInt32} (hword : Function.Injective word) (start target : UInt32) :
    ∃ a b, absorb (absorb start (word a)) (word b) = target := by
  obtain ⟨mixed, hmixed⟩ := Finite.injective_iff_surjective.mp spread_injective target
  have hafter : Function.Injective fun a => absorb start (word a) :=
    (absorb_injective_group start).comp hword
  have hbefore : Function.Injective fun b => mixed ^^^ scramble (word b) :=
    fun a b h => hword (scramble_injective ((UInt32.xor_right_inj _).mp h))
  obtain ⟨a, b, hab⟩ := exists_eq_of_injective hcard hafter hbefore
  refine ⟨a, b, ?_⟩
  calc absorb (absorb start (word a)) (word b)
      = absorb (mixed ^^^ scramble (word b)) (word b) := congrArg (absorb · _) hab
    _ = rotateLeft mixed 13 * 5 + 0xE6546B64 := by
        simp only [absorb, UInt32.xor_assoc, UInt32.xor_self, UInt32.xor_zero]
    _ = target := hmixed

end Murmur3

end ShardedQuery
