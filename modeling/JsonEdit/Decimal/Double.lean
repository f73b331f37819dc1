/-!
# Double precision

The finite numbers of double precision are `m * 2 ^ q` with `m` below `2 ^ 53` and `q` at least
`-1074`. A decimal is read as the nearest of them; of two at the same distance the even one is
taken.

* `Double`: a number without its sign;
* `Double.ofDecimal?`: the nearest one to a decimal.
-/

namespace JsonEdit

/-- The number `mantissa * 2 ^ exponent`. -/
structure Double where
  mantissa : Nat
  exponent : Int
deriving DecidableEq, Repr

/-- A positive rational number, as numerator and denominator. -/
structure Ratio where
  num : Nat
  den : Nat
deriving DecidableEq, Repr

namespace Ratio

/-- The number times a power of a base. -/
def scale (r : Ratio) (base : Nat) (power : Int) : Ratio :=
  if power < 0 then ⟨r.num, r.den * Nat.pow base (-power).toNat⟩
  else ⟨r.num * Nat.pow base power.toNat, r.den⟩

/-- The integer part. -/
def floor (r : Ratio) : Nat := r.num / r.den

/-- The nearest integer; a half goes to the even one. -/
def round (r : Ratio) : Nat :=
  let below := r.num / r.den
  let twice := 2 * (r.num % r.den)
  if twice < r.den then below
  else if r.den < twice then below + 1
  else if below % 2 = 0 then below else below + 1

end Ratio

namespace Double

/-- Zero. -/
def zero : Double := ⟨0, -1074⟩

/-- All mantissas are below `2 ^ 53`. -/
def mantissaBound : Nat := 9007199254740992

/-- A mantissa with all its bits is at least `2 ^ 52`. -/
def fullMantissa : Nat := 4503599627370496

/-- The exponent with which a positive number has an integer part of 53 bits, or the least one. -/
def exponentOf (r : Ratio) : Int :=
  let guess : Int := (Nat.log2 r.num : Int) - Nat.log2 r.den - 53
  let candidates := [guess, guess + 1, guess + 2]
  let fits := candidates.find? fun q => (r.scale 2 (-q)).floor < mantissaBound
  max (fits.getD (guess + 2)) (-1074)

/-- The nearest number to a positive rational, if it is not too large. -/
def ofRatio? (r : Ratio) : Option Double :=
  let q := exponentOf r
  let m := (r.scale 2 (-q)).round
  let d : Double := if m = mantissaBound then ⟨fullMantissa, q + 1⟩ else ⟨m, q⟩
  if d.exponent ≤ 971 then some d else none

/-- The nearest number to `digits * 10 ^ power`, if it is not too large. -/
def ofDecimal? (digits : Nat) (power : Int) : Option Double :=
  let magnitude := power + (Nat.toDigits 10 digits).length
  if digits = 0 || magnitude < -400 then some zero
  else if 400 < magnitude then none
  else ofRatio? (Ratio.scale ⟨digits, 1⟩ 10 power)

end Double

end JsonEdit
