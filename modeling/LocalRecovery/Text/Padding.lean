set_option autoImplicit false

/-! # Numbers of a given width

Tokens are written with a fixed number of hexadecimal digits (`Text.hex`, `Text.hexUpper`) and
positions in code with at least four decimal digits (`Text.decimal`).
-/

namespace LocalRecovery.Text

/-! ## Hexadecimal digits -/

/-- The last `width` base-sixteen digits of `n`, most significant first, each drawn by `glyph`. -/
def hexDigits (glyph : Nat → Char) : Nat → Nat → List Char
  | 0, _ => []
  | width + 1, n => hexDigits glyph width (n / 16) ++ [glyph (n % 16)]

/-- `n` in `width` hexadecimal digits with small letters. -/
def hex (width n : Nat) : String :=
  String.ofList (hexDigits Nat.digitChar width n)

/-- `n` in `width` hexadecimal digits with capital letters. -/
def hexUpper (width n : Nat) : String :=
  String.ofList (hexDigits (fun d => (Nat.digitChar d).toUpper) width n)

/-! ## Decimal digits -/

/-- `n` in decimal, filled up with leading zeros to at least `width` digits. -/
def decimal (width n : Nat) : String :=
  let digits := Nat.toDigits 10 n
  String.ofList (List.replicate (width - digits.length) '0' ++ digits)

end LocalRecovery.Text
