/-!
# Sixty-four bit floating point numbers

`Binary64` is a number in the IEEE 754 double format, held as its bits.  The type leaves
not-a-number out, so the equality and both orders below are total.

* `Binary64.value` places a number on the line of integers, with both zeros at `0`; it gives the
  numeric order and the numeric equality.
* `Binary64.rank` does the same with minus zero just below zero; it gives the total order.
* `Binary64.ofInt` rounds an integer to the nearest number, a tie going to the even neighbour.
-/

namespace ShardedQuery

def Binary64.signBit : Nat := 0x8000000000000000

/-- The unit of the exponent field, which lies above the 52 bits of the fraction. -/
def Binary64.leadingBit : Nat := 0x10000000000000

/-- The bits of infinity without the sign: the largest magnitude a number may have. -/
def Binary64.infinity : Nat := 0x7FF0000000000000

/-- A double precision number that is not a NaN. -/
structure Binary64 where
  bits : UInt64
  notNaN : bits.toNat % Binary64.signBit ≤ Binary64.infinity
deriving DecidableEq

namespace Binary64

/-- The number with these bits, if they are not those of a NaN. -/
def ofBits? (bits : UInt64) : Option Binary64 :=
  if h : bits.toNat % signBit ≤ infinity then some ⟨bits, h⟩ else none

/-- The number with this sign and this magnitude; magnitudes too large become infinity. -/
def ofMagnitude (negative : Bool) (magnitude : Nat) : Binary64 where
  bits := UInt64.ofNat ((if negative then signBit else 0) + min magnitude infinity)
  notNaN := by
    have h : min magnitude infinity ≤ infinity := Nat.min_le_right _ _
    cases negative <;> simp only [UInt64.toNat_ofNat', signBit, infinity] at h ⊢ <;> grind

instance : Inhabited Binary64 := ⟨ofMagnitude false 0⟩

/-- All bits but the sign, as a natural number; larger magnitudes are further from zero. -/
def magnitude (x : Binary64) : Nat := x.bits.toNat % signBit

/-- The sign bit; it is set for minus zero too. -/
def isNegative (x : Binary64) : Bool := signBit ≤ x.bits.toNat

def isInfinite (x : Binary64) : Bool := x.magnitude == infinity

/-! ### Order -/

/-- A place on the integer line that keeps the numeric order; both zeros are at `0`. -/
def value (x : Binary64) : Int :=
  if x.isNegative then -(x.magnitude : Int) else x.magnitude

/-- A place on the integer line that keeps the numeric order and puts minus zero below zero. -/
def rank (x : Binary64) : Int :=
  if x.isNegative then -(x.magnitude : Int) - 1 else x.magnitude

/-- Numeric equality: the two zeros are equal. -/
instance : BEq Binary64 := ⟨fun x y => x.value == y.value⟩

/-- The numeric comparison, in which the two zeros are equal. -/
def compareValue (x y : Binary64) : Ordering := compare x.value y.value

/-- The total comparison, in which minus zero is below zero. -/
def compareTotal (x y : Binary64) : Ordering := compare x.rank y.rank

/-! ### Integers -/

/-- A quotient by a power of two, rounded to the nearest integer, a tie to the even one. -/
def shiftRightToEven (m shift : Nat) : Nat :=
  let unit := 1 <<< shift
  let quotient := m / unit
  let twice := 2 * (m % unit)
  if unit < twice || (twice == unit && quotient % 2 == 1) then quotient + 1 else quotient

/-- The magnitude nearest to a natural number.  The significand keeps its leading bit, which adds
one to the exponent field below it, and a carry out of the rounding does the same. -/
def magnitudeOfNat (m : Nat) : Nat :=
  if m = 0 then 0
  else
    let exponent := m.log2
    let significand :=
      if exponent ≤ 52 then m <<< (52 - exponent) else shiftRightToEven m (exponent - 52)
    (exponent + 1022) * leadingBit + significand

def ofInt (n : Int) : Binary64 := ofMagnitude (decide (n < 0)) (magnitudeOfNat n.natAbs)

end Binary64

end ShardedQuery
