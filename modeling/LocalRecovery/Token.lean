import LocalRecovery.Text.Padding

set_option autoImplicit false

/-! # Tokens

A token names a row of one of a module's tables: the upper eight bits are the table, the lower
twenty-four the row. Tokens are ordered by their value.
-/

namespace LocalRecovery

/-- The name of a row of a table. -/
structure Token where
  value : UInt32
  deriving DecidableEq

namespace Token

/-- The table of type definitions. -/
def typeTable : UInt8 := 0x02

/-- The table of fields. -/
def fieldTable : UInt8 := 0x04

/-- The table that the token points into. -/
def table (t : Token) : UInt8 :=
  (t.value >>> 24).toUInt8

/-- The row within the table. -/
def row (t : Token) : UInt32 :=
  t.value &&& 0x00FFFFFF

/-- The token of a row of a table. Rows beyond twenty-four bits wrap around. -/
def ofParts (table : UInt8) (row : UInt32) : Token :=
  ⟨(table.toUInt32 <<< 24) ||| (row &&& 0x00FFFFFF)⟩

/-- The token that names nothing. -/
def isNull (t : Token) : Bool :=
  t.value == 0

/-- Does the token name a field? -/
def isField (t : Token) : Bool :=
  t.table == fieldTable

/-- Is the value of the first token at most that of the second? -/
def le (s t : Token) : Bool :=
  decide (s.value ≤ t.value)

/-- The tokens by ascending value. -/
def sort (ts : List Token) : List Token :=
  ts.mergeSort le

/-! ## Text -/

/-- The value in eight hexadecimal digits. -/
def text (t : Token) : String :=
  "0x" ++ Text.hex 8 t.value.toNat

/-- The value in eight hexadecimal digits with capital letters, as reports write it. -/
def tag (t : Token) : String :=
  "0x" ++ Text.hexUpper 8 t.value.toNat

/-- The value with its two parts. -/
def dump (t : Token) : String :=
  "Token(" ++ t.text ++ ", table: 0x" ++ Text.hex 2 t.table.toNat ++ ", row: "
    ++ toString t.row.toNat ++ ")"

end Token

end LocalRecovery
