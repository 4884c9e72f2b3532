import ShardedQuery.Number.Binary64

/-!
# Decimals and the shortest decimal of a number

* `Decimal` is a natural coefficient with a power of ten; `Decimal.positional` writes it out without
  an exponent.
* `Binary64.shortest` is the decimal with the fewest digits among those that round to the number; of
  several with that many digits it is the nearest, and of two equally near the larger.

Everything is exact arithmetic on natural numbers.  The reals that round to a number form an
interval around it, and if any point of a decimal grid lies in that interval, so does one of the two
grid points next to the number; so each grid needs only two tests.
-/

namespace ShardedQuery

/-- The number `coefficient * 10 ^ exponent`. -/
structure Decimal where
  coefficient : Nat
  exponent : Int
deriving DecidableEq

namespace Decimal

/-- The same number, with at most `fuel` zeros moved from the end of the coefficient to the
exponent. -/
def strip : Nat → Decimal → Decimal
  | 0, d => d
  | fuel + 1, d =>
    if d.coefficient ≠ 0 && d.coefficient % 10 == 0 then
      strip fuel ⟨d.coefficient / 10, d.exponent + 1⟩
    else d

/-- The digits of a natural number, padded with zeros on the left to the given width. -/
def padded (width n : Nat) : List Char :=
  let digits := Nat.toDigits 10 n
  List.replicate (width - digits.length) '0' ++ digits

/-- The decimal written out: all its digits, a point only where there is a fraction, and a zero in
front of a point that would otherwise come first. -/
def positional (d : Decimal) : String :=
  if 0 ≤ d.exponent then
    String.ofList (Nat.toDigits 10 (d.coefficient * Nat.pow 10 d.exponent.toNat))
  else
    let places := (-d.exponent).toNat
    let digits := padded (places + 1) d.coefficient
    let whole := digits.length - places
    String.ofList (digits.take whole ++ '.' :: digits.drop whole)

end Decimal

/-! ### The interval of reals that round to a number -/

/-- An interval of positive reals and a point inside it, as numerators over one denominator. -/
structure Rounding where
  lower : Nat
  point : Nat
  upper : Nat
  denominator : Nat
  /-- The ends belong to the interval. -/
  closed : Bool

namespace Rounding

/-- The reals that round to the number with this magnitude, for a positive finite magnitude.  Halves
of the gaps to the two neighbours are counted in quarters of the last place, because below a power
of two the gap is half as wide. -/
def ofMagnitude (magnitude : Nat) : Rounding :=
  let field := magnitude / Binary64.leadingBit
  let fraction := magnitude % Binary64.leadingBit
  let significand := if field = 0 then fraction else Binary64.leadingBit + fraction
  let exponent : Int := (max field 1 : Nat) - 1077
  let scale := exponent.toNat
  { lower := (4 * significand - if fraction = 0 && 1 < field then 1 else 2) <<< scale
    point := (4 * significand) <<< scale
    upper := (4 * significand + 2) <<< scale
    denominator := 1 <<< (-exponent).toNat
    closed := significand % 2 == 0 }

/-- Whether the real `numerator / denominator` lies in the interval, both given over one
denominator. -/
def contains (r : Rounding) (numerator : Nat) : Bool :=
  if r.closed then r.lower ≤ numerator && numerator ≤ r.upper
  else r.lower < numerator && numerator < r.upper

def scale (r : Rounding) (exponent : Int) : Rounding :=
  let up := Nat.pow 10 exponent.toNat
  { r with
    lower := r.lower * up
    point := r.point * up
    upper := r.upper * up
    denominator := r.denominator * Nat.pow 10 (-exponent).toNat }

/-- The number of digits before the point: the least `d` with the point below `10 ^ d`.  It is zero
or negative below one tenth, down to the given number of places. -/
def order (r : Rounding) (places : Nat) : Int :=
  if r.denominator ≤ r.point then (Nat.toDigits 10 (r.point / r.denominator)).length
  else
    match (List.range places).find? fun j => r.denominator ≤ r.point * Nat.pow 10 (j + 1) with
    | some j => -(j : Int)
    | none => -(places : Int)

/-- The point of the grid of multiples of `10 ^ exponent` that lies in the interval, if there is
one: one of the two next to the number, the nearer of them, or the upper one where both are equally
near. -/
def gridPoint? (r : Rounding) (exponent : Int) : Option Decimal :=
  let s := r.scale (-exponent)
  let below := s.point / s.denominator
  let low := below * s.denominator
  let high := low + s.denominator
  match s.contains low, s.contains high with
  | true, true =>
    some ⟨if s.point - low < high - s.point then below else below + 1, exponent⟩
  | true, false => some ⟨below, exponent⟩
  | false, true => some ⟨below + 1, exponent⟩
  | false, false => none

end Rounding

namespace Binary64

/-- The decimal with the fewest digits that rounds to the magnitude of a number; seventeen digits
are always enough. -/
def shortest (x : Binary64) : Decimal :=
  if x.magnitude = 0 then ⟨0, 0⟩
  else
    let r := Rounding.ofMagnitude x.magnitude
    let order := r.order 330
    match (List.range 17).findSome? fun n : Nat => r.gridPoint? (order - ((n : Int) + 1)) with
    | some d => d.strip 20
    | none => ⟨0, 0⟩

/-- The number in decimal: the shortest digits that read back as the number, never an exponent, a
point only before a fraction, the sign of minus zero kept, infinity as `inf`. -/
def toDecimalString (x : Binary64) : String :=
  let sign := if x.isNegative then "-" else ""
  sign ++ if x.isInfinite then "inf" else x.shortest.positional

end Binary64

end ShardedQuery
