import LocalRecovery.Decimal.Shortest

set_option autoImplicit false

/-! # Floating-point numbers as text

Two ways to write a number, with the same digits. `Binary64.text` writes every number
positionally. `Binary64.literal` marks whole numbers by `.0` and writes the very large and the very
small with an exponent, so that the text is also recognisable as a floating-point number.
-/

namespace LocalRecovery

namespace Decimal

/-- The position of the decimal point, counted from the first digit: `0.d₁d₂… * 10 ^ point`. -/
def point (d : Decimal) : Int :=
  d.power + digitCount d.digits

/-- The digits with the point among them. A whole number is followed by `wholeMark`. -/
def positional (d : Decimal) (wholeMark : String) : String :=
  let digits := Nat.toDigits 10 d.digits
  let zeros (n : Int) := List.replicate n.toNat '0'
  if 0 ≤ d.power then
    String.ofList (digits ++ zeros d.power) ++ wholeMark
  else if 0 < d.point then
    String.ofList (digits.take d.point.toNat ++ '.' :: digits.drop d.point.toNat)
  else
    "0." ++ String.ofList (zeros (-d.point) ++ digits)

/-- One digit in front of the point, and the power of ten after an `e`. -/
def scientific (d : Decimal) : String :=
  let digits := Nat.toDigits 10 d.digits
  let fraction := digits.drop 1
  String.ofList (digits.take 1)
    ++ (if fraction.isEmpty then "" else "." ++ String.ofList fraction)
    ++ "e" ++ toString (d.point - 1)

end Decimal

namespace Binary64

/-- The text of a number whose magnitude is zero (`zero`) or finite (`finite`). -/
def render (x : Binary64) (zero : String) (finite : Decimal → String) : String :=
  let sign := if x.negative then "-" else ""
  if x.isNaN then "NaN"
  else if x.isInfinite then sign ++ "inf"
  else if x.isZero then sign ++ zero
  else sign ++ finite x.shortest

/-- The number in positional notation. -/
def text (x : Binary64) : String :=
  x.render "0" fun d => d.positional ""

/-- The number in positional notation from `10 ^ -4` up to `10 ^ 16`, otherwise with an exponent. -/
def literal (x : Binary64) : String :=
  x.render "0.0" fun d =>
    if -4 < d.point ∧ d.point ≤ 16 then d.positional ".0" else d.scientific

end Binary64

end LocalRecovery
