import JsonEdit.Decimal.Double
import JsonEdit.Json.Number

/-!
# Shortest decimals

A number of double precision is written with the fewest digits that are read back as the same
number, and of those with the nearest ones.

* `Double.shortest`: the digits, and the power of ten of the last one;
* `Double.toNumber`: the number written out. The point is shown where it falls if that takes at
  most four zeros after it or the integer part has at most sixteen digits; otherwise there is an
  exponent, always with a sign.
-/

namespace JsonEdit

namespace Double

/-- The number as a ratio. -/
def ratio (d : Double) : Ratio := Ratio.scale ⟨d.mantissa, 1⟩ 2 d.exponent

/-- Whether a decimal is read as the number: it lies between the middles to both neighbours, or on
one of them if the number is even. -/
def reads (d : Double) (digits : Nat) (power : Int) : Bool :=
  let lowGap := if d.mantissa = fullMantissa && -1074 < d.exponent then 1 else 2
  let quarter := Ratio.scale ⟨1, 1⟩ 2 (d.exponent - 2)
  let decimal := Ratio.scale ⟨digits, 1⟩ 10 power
  let low := (4 * d.mantissa - lowGap) * quarter.num * decimal.den
  let high := (4 * d.mantissa + 2) * quarter.num * decimal.den
  let value := decimal.num * quarter.den
  if d.mantissa % 2 = 0 then low ≤ value && value ≤ high else low < value && value < high

/-- The nearest decimal with the given power of ten that is read as the number. -/
def nearest? (d : Double) (power : Int) : Option Nat :=
  let scaled := d.ratio.scale 10 (-power)
  let below := scaled.floor
  let first := scaled.round
  let second := if first = below then below + 1 else below
  if d.reads first power then some first
  else if d.reads second power then some second
  else none

/-- The power of ten of the first digit of a positive number. -/
def leading (d : Double) : Int :=
  let powers := (List.range 640).map fun (i : Nat) => (310 : Int) - i
  (powers.find? fun (p : Int) => 0 < (d.ratio.scale 10 (-p)).floor).getD (-324)

/-- The fewest digits that are read back as the number, and the power of ten of the last one. -/
def shortest (d : Double) : Nat × Int :=
  let powers := (List.range 17).map fun (i : Nat) => d.leading - i
  let found := powers.findSome? fun (p : Int) => (d.nearest? p).map fun digits => (digits, p)
  found.getD (d.mantissa, 0)

/-- The digits of a number without zeros at the end, and the power of ten of the last one. -/
def trim (digits : List Char) (power : Int) : List Char × Int :=
  let zeros := (digits.reverse.takeWhile (· == '0')).length
  (digits.take (digits.length - zeros), power + zeros)

/-- Digits with a point or an exponent. -/
def layOut (digits : List Char) (power : Int) : List Char :=
  let point : Int := digits.length + power
  if 0 ≤ power && point ≤ 16 then
    digits ++ List.replicate power.toNat '0' ++ ['.', '0']
  else if 0 < point && point ≤ 16 then
    digits.take point.toNat ++ '.' :: digits.drop point.toNat
  else if -5 < point && point ≤ 0 then
    ['0', '.'] ++ List.replicate (-point).toNat '0' ++ digits
  else
    let mantissa := match digits with
      | first :: second :: rest => first :: '.' :: second :: rest
      | _ => digits
    mantissa ++ 'e' :: (if 0 < point then ['+'] else []) ++ (toString (point - 1)).toList

/-- The number written out, behind a minus if it is negative. -/
def toNumber (negative : Bool) (d : Double) : Number :=
  let text :=
    if d.mantissa = 0 then ['0', '.', '0']
    else
      let (digits, power) := d.shortest
      let (digits, power) := trim (Nat.toDigits 10 digits) power
      layOut digits power
  (Number.ofChars? (if negative then '-' :: text else text)).getD Number.zero

end Double

end JsonEdit
