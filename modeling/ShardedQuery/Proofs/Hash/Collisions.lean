import ShardedQuery.Proofs.Hash.Routing

/-!
# Inputs that cannot collide

The first hash function takes bytes in groups of four, and each of its steps can be undone.  So two
inputs of one length have different hashes if they differ in one group only; whatever comes before
and after the group is the same for both.  A group is two code units.

* `AgreeOutside` — two lists are equal but for one block of places.
* `Text.codeUnits_injective` — a string is known from its code units.
* `Text.agreeOutside_littleEndian` — a block of units is a block of bytes twice as long.
* `Murmur3.absorbAll_injective` — the bytes that follow keep two states apart.
* `Murmur3.absorbAll_ne` — two inputs that differ in one group leave different states.
* `RoutingHash.hash_ne_of_agreeOutside` — **inputs that differ in one group only have different
  hashes**, and so have routing values that differ in one pair of code units only.
-/

namespace ShardedQuery

/-! ### One block of places -/

/-- Two lists of one length are equal at all places but those of the block `j`, where each block has
`size` places and the last may have fewer. -/
structure AgreeOutside {α : Type} (size j : Nat) (xs ys : List α) : Prop where
  length : xs.length = ys.length
  outside : ∀ i, i / size ≠ j → xs[i]? = ys[i]?

namespace AgreeOutside

variable {α : Type} {size j : Nat} {xs ys : List α}

/-- What comes after the first block is equal if that is the block. -/
theorem drop_eq (h : AgreeOutside size 0 xs ys) (hsize : 0 < size) :
    xs.drop size = ys.drop size := by
  apply List.ext_getElem?
  intro i
  rw [List.getElem?_drop, List.getElem?_drop]
  apply h.outside
  rw [Nat.add_div_left _ hsize]
  exact Nat.succ_ne_zero _

/-- The first block is equal if it is not the block. -/
theorem take_eq (h : AgreeOutside size (j + 1) xs ys) : xs.take size = ys.take size := by
  apply List.ext_getElem?
  intro i
  by_cases hi : i < size
  · rw [List.getElem?_take_of_lt hi, List.getElem?_take_of_lt hi]
    apply h.outside
    rw [Nat.div_eq_of_lt hi]
    omega
  · rw [List.getElem?_eq_none (by simp; omega), List.getElem?_eq_none (by simp; omega)]

/-- The other blocks are numbered anew once the first one is gone. -/
theorem drop (h : AgreeOutside size (j + 1) xs ys) (hsize : 0 < size) :
    AgreeOutside size j (xs.drop size) (ys.drop size) where
  length := by rw [List.length_drop, List.length_drop, h.length]
  outside i hi := by
    rw [List.getElem?_drop, List.getElem?_drop]
    apply h.outside
    rw [Nat.add_div_left _ hsize]
    exact fun heq => hi (Nat.succ.inj heq)

instance [DecidableEq α] : Decidable (AgreeOutside size j xs ys) :=
  decidable_of_iff
    (xs.length = ys.length ∧ ∀ i < xs.length, i / size ≠ j → xs[i]? = ys[i]?) <| by
      constructor
      · intro h
        refine ⟨h.1, fun i hi => ?_⟩
        by_cases hin : i < xs.length
        · exact h.2 i hin hi
        · rw [List.getElem?_eq_none (by omega), List.getElem?_eq_none (by omega)]
      · intro h
        exact ⟨h.length, fun i _ hi => h.outside i hi⟩

end AgreeOutside

/-! ### Code units and their bytes -/

namespace Text

/-- A string begins with the character that its first code units are: a unit that is a character of
its own is no surrogate. -/
theorem eq_of_unitsOfChar_append {c d : Char} {us vs : List UInt16}
    (h : unitsOfChar c ++ us = unitsOfChar d ++ vs) : c = d ∧ us = vs := by
  have hc : c.toNat < 0xD800 ∨ 0xDFFF < c.toNat ∧ c.toNat < 0x110000 := c.valid
  have hd : d.toNat < 0xD800 ∨ 0xDFFF < d.toNat ∧ d.toNat < 0x110000 := d.valid
  have hunits : ∀ m n : Nat, UInt16.ofNat m = UInt16.ofNat n → m % 2 ^ 16 = n % 2 ^ 16 := by
    intro m n hmn
    simpa only [UInt16.toNat_ofNat'] using congrArg UInt16.toNat hmn
  unfold unitsOfChar at h
  by_cases hone : c.toNat < 0x10000
  · by_cases hone' : d.toNat < 0x10000
    · simp only [hone, hone', if_true, List.cons_append, List.nil_append, List.cons.injEq] at h
      have hfirst := hunits _ _ h.1
      exact ⟨Char.toNat_inj.mp (by omega), h.2⟩
    · simp only [hone, hone', if_true, if_false, List.cons_append, List.nil_append,
        List.cons.injEq] at h
      have hfirst := hunits _ _ h.1
      omega
  · by_cases hone' : d.toNat < 0x10000
    · simp only [hone, hone', if_true, if_false, List.cons_append, List.nil_append,
        List.cons.injEq] at h
      have hfirst := hunits _ _ h.1
      omega
    · simp only [hone, hone', if_false, List.cons_append, List.nil_append, List.cons.injEq] at h
      have hfirst := hunits _ _ h.1
      have hsecond := hunits _ _ h.2.1
      exact ⟨Char.toNat_inj.mp (by omega), h.2.2⟩

theorem unitsOfChar_ne_nil (c : Char) : unitsOfChar c ≠ [] := by
  by_cases hone : c.toNat < 0x10000 <;> simp [unitsOfChar, hone]

/-- **A string is known from its code units.** -/
theorem codeUnits_injective : Function.Injective codeUnits := by
  intro s t h
  apply String.toList_injective
  unfold codeUnits at h
  generalize s.toList = cs at h ⊢
  generalize t.toList = ds at h ⊢
  induction cs generalizing ds with
  | nil =>
    cases ds with
    | nil => rfl
    | cons d ds => exact absurd h.symm (by simp [unitsOfChar_ne_nil])
  | cons c cs ih =>
    cases ds with
    | nil => exact absurd h (by simp [unitsOfChar_ne_nil])
    | cons d ds =>
      rw [List.flatMap_cons, List.flatMap_cons] at h
      obtain ⟨rfl, hrest⟩ := eq_of_unitsOfChar_append h
      rw [ih ds hrest]

/-- The two bytes of a unit stand at twice its place. -/
theorem getElem?_littleEndian (units : List UInt16) (i : Nat) :
    (littleEndian units)[i]? = (units[i / 2]?).map fun u =>
      if i % 2 = 0 then UInt8.ofNat (u.toNat % 256) else UInt8.ofNat (u.toNat / 256) := by
  induction units generalizing i with
  | nil => rfl
  | cons u units ih =>
    match i with
    | 0 => rfl
    | 1 => rfl
    | i + 2 =>
      show (littleEndian units)[i]? = _
      rw [ih i, Nat.add_mod_right, Nat.add_div_right i (by decide), List.getElem?_cons_succ]

theorem length_littleEndian (units : List UInt16) :
    (littleEndian units).length = 2 * units.length := by
  induction units with
  | nil => rfl
  | cons u units ih =>
    show (littleEndian units).length + 2 = 2 * (units.length + 1)
    omega

/-- A block of units is a block of bytes twice as long. -/
theorem agreeOutside_littleEndian {size j : Nat} {us vs : List UInt16}
    (h : AgreeOutside size j us vs) :
    AgreeOutside (2 * size) j (littleEndian us) (littleEndian vs) where
  length := by rw [length_littleEndian, length_littleEndian, h.length]
  outside i hi := by
    rw [getElem?_littleEndian, getElem?_littleEndian, h.outside (i / 2)]
    rwa [Nat.div_div_eq_div_mul]

end Text

namespace Murmur3

/-! ### States -/

/-- A group that is not full is only added. -/
theorem absorbAll_short (h : UInt32) {bytes : List UInt8} (hshort : bytes.length < 4) :
    absorbAll h bytes = h ^^^ scramble (wordOfBytes bytes) := by
  match bytes, hshort with
  | [], _ =>
    have hzero : scramble (wordOfBytes []) = 0 := by decide
    rw [hzero, UInt32.xor_zero]
    rfl
  | [_], _ => rfl
  | [_, _], _ => rfl
  | [_, _, _], _ => rfl

/-- A full group comes before the rest. -/
theorem absorbAll_long (h : UInt32) {bytes : List UInt8} (hlong : 4 ≤ bytes.length) :
    absorbAll h bytes = absorbAll (absorb h (wordOfBytes (bytes.take 4))) (bytes.drop 4) := by
  match bytes, hlong with
  | a :: b :: c :: d :: rest, _ =>
    show absorbAll h (a :: b :: c :: d :: rest) =
      absorbAll (absorb h (wordOfBytes [a, b, c, d])) rest
    -- by its equation the unifier would go on to compute the words
    delta absorbAll
    rfl

/-- **The bytes that follow keep two states apart.** -/
theorem absorbAll_injective (bytes : List UInt8) :
    Function.Injective fun h => absorbAll h bytes := by
  intro v w h
  replace h : absorbAll v bytes = absorbAll w bytes := h
  induction hlength : bytes.length using Nat.strong_induction_on generalizing bytes v w with
  | _ n ih =>
    by_cases hshort : bytes.length < 4
    · rw [absorbAll_short v hshort, absorbAll_short w hshort] at h
      exact (UInt32.xor_left_inj _).mp h
    · have hlong : 4 ≤ bytes.length := by omega
      rw [absorbAll_long v hlong, absorbAll_long w hlong] at h
      have hrest : (bytes.drop 4).length < n := by
        rw [List.length_drop]
        omega
      exact absorb_injective _ (ih _ hrest _ h rfl)

/-- **Inputs that differ in one group leave different states.** -/
theorem absorbAll_ne {as bs : List UInt8} {j : Nat} (hagree : AgreeOutside 4 j as bs)
    (hne : as ≠ bs) (h : UInt32) : absorbAll h as ≠ absorbAll h bs := by
  induction j generalizing as bs h with
  | zero =>
    have hdrop := hagree.drop_eq (by decide)
    by_cases hshort : as.length < 4
    · -- the group is the last one and not full
      have hshort' : bs.length < 4 := by rw [← hagree.length]; exact hshort
      rw [absorbAll_short h hshort, absorbAll_short h hshort']
      intro heq
      have hword := scramble_injective ((UInt32.xor_right_inj _).mp heq)
      exact hne (wordOfBytes_inj hagree.length (by omega) hword)
    · have hlong : 4 ≤ as.length := by omega
      have hlong' : 4 ≤ bs.length := by rw [← hagree.length]; exact hlong
      rw [absorbAll_long h hlong, absorbAll_long h hlong', hdrop]
      intro heq
      have hword := absorb_injective_group h (absorbAll_injective _ heq)
      have htake : as.take 4 = bs.take 4 := by
        apply wordOfBytes_inj _ _ hword
        · rw [List.length_take, List.length_take, hagree.length]
        · rw [List.length_take]
          omega
      apply hne
      rw [← List.take_append_drop 4 as, ← List.take_append_drop 4 bs, htake, hdrop]
  | succ j ih =>
    have htake := hagree.take_eq
    have hdrop := hagree.drop (by decide)
    have hne' : as.drop 4 ≠ bs.drop 4 := by
      intro heq
      apply hne
      rw [← List.take_append_drop 4 as, ← List.take_append_drop 4 bs, htake, heq]
    have hlong : 4 ≤ as.length := by
      by_contra hshort
      apply hne'
      rw [List.drop_eq_nil_of_le (by omega), List.drop_eq_nil_of_le (by rw [← hagree.length]; omega)]
    have hlong' : 4 ≤ bs.length := by rw [← hagree.length]; exact hlong
    rw [absorbAll_long h hlong, absorbAll_long h hlong', htake]
    exact ih hdrop hne' _

/-- Two inputs that differ in one group have different hashes: their lengths are the same, and the
end of the hash loses nothing. -/
theorem hash_ne {as bs : List UInt8} {j : Nat} (hagree : AgreeOutside 4 j as bs) (hne : as ≠ bs)
    (seed : UInt32) : hash seed as ≠ hash seed bs := by
  intro heq
  have hstate := finish_injective heq
  rw [hagree.length] at hstate
  exact absorbAll_ne hagree hne seed ((UInt32.xor_left_inj _).mp hstate)

end Murmur3

namespace RoutingHash

/-- **Inputs that differ in one group only have different hashes.**

* Two byte strings of one length that differ, but within one group of four places only, have
  different hashes, whatever the seed is; the last group may have fewer places.
* Two strings that differ, but only in the code units `2 * j` and `2 * j + 1` among equally many,
  have different routing hashes. -/
theorem hash_ne_of_agreeOutside :
    (∀ (seed : UInt32) (j : Nat) (as bs : List UInt8), AgreeOutside 4 j as bs → as ≠ bs →
      Murmur3.hash seed as ≠ Murmur3.hash seed bs) ∧
    ∀ (j : Nat) (s t : String), AgreeOutside 2 j (Text.codeUnits s) (Text.codeUnits t) → s ≠ t →
      murmur3.hash s ≠ murmur3.hash t := by
  constructor
  · intro seed j as bs hagree hne
    exact Murmur3.hash_ne hagree hne seed
  · intro j s t hagree hne heq
    have hbytes := Text.agreeOutside_littleEndian hagree
    have hne' : Text.littleEndian (Text.codeUnits s) ≠ Text.littleEndian (Text.codeUnits t) :=
      fun h => hne (Text.codeUnits_injective (Text.littleEndian_injective h))
    have hhash : Murmur3.hash 0 (Text.littleEndian (Text.codeUnits s)) =
        Murmur3.hash 0 (Text.littleEndian (Text.codeUnits t)) := congrArg Int32.toUInt32 heq
    exact Murmur3.hash_ne hbytes hne' 0 hhash

/-- A last group of one byte, and two characters that share their high surrogate. -/
theorem hash_ne_of_agreeOutside_lastGroup :
    (AgreeOutside 4 1 ([104, 101, 108, 108, 111] : List UInt8) [104, 101, 108, 108, 112] ∧
      Murmur3.hash 7 [104, 101, 108, 108, 111] ≠ Murmur3.hash 7 [104, 101, 108, 108, 112]) ∧
    AgreeOutside 2 1 (Text.codeUnits "ab😀") (Text.codeUnits "ab😁") ∧
      murmur3.hash "ab😀" ≠ murmur3.hash "ab😁" := by
  have hbytes : AgreeOutside 4 1 ([104, 101, 108, 108, 111] : List UInt8)
      [104, 101, 108, 108, 112] := by decide
  have hunits : AgreeOutside 2 1 (Text.codeUnits "ab😀") (Text.codeUnits "ab😁") := by
    decide +kernel
  exact ⟨⟨hbytes, hash_ne_of_agreeOutside.1 7 1 _ _ hbytes (by decide)⟩, hunits,
    hash_ne_of_agreeOutside.2 1 _ _ hunits (by decide)⟩

end RoutingHash

end ShardedQuery
