import LocalRecovery.Decimal.Layout
import LocalRecovery.Opcode.Basic
import LocalRecovery.Token

set_option autoImplicit false

/-! # Operands

An operand in decoded form: a branch names its target by the index of an instruction, not by a
distance in bytes.
-/

namespace LocalRecovery

/-- A constant within an instruction. -/
inductive Immediate where
  | int8 (value : Int8)
  | int32 (value : Int32)
  | int64 (value : Int64)
  | float64 (value : Binary64)
  deriving DecidableEq

/-- What follows the opcode of an instruction. -/
inductive Operand where
  | none
  | immediate (value : Immediate)
  | target (index : Nat)
  | token (name : Token)
  | localSlot (index : UInt16)
  | argumentSlot (index : UInt16)
  deriving DecidableEq

/-- May an operand of this kind be the given one? A slot may lie in either area, since the width is
all that the encoding knows of. -/
def OperandKind.admits : OperandKind → Operand → Bool
  | .none, .none => true
  | .slot .long, .localSlot _ => true
  | .slot .long, .argumentSlot _ => true
  | .slot .short, .localSlot index => decide (index ≤ 255)
  | .slot .short, .argumentSlot index => decide (index ≤ 255)
  | .int8, .immediate (.int8 _) => true
  | .int32, .immediate (.int32 _) => true
  | .int64, .immediate (.int64 _) => true
  | .float64, .immediate (.float64 _) => true
  | .token _, .token _ => true
  | .target _, .target _ => true
  | _, _ => false

namespace Immediate

/-- The constant in decimal. -/
def text : Immediate → String
  | .int8 value => toString value.toInt
  | .int32 value => toString value.toInt
  | .int64 value => toString value.toInt
  | .float64 value => value.text

/-- The constant with its type. -/
def dump : Immediate → String
  | .int8 value => "Int8(" ++ toString value.toInt ++ ")"
  | .int32 value => "Int32(" ++ toString value.toInt ++ ")"
  | .int64 value => "Int64(" ++ toString value.toInt ++ ")"
  | .float64 value => "Float64(" ++ value.literal ++ ")"

/-- Equality of constants, floating-point numbers by value. -/
def numEq : Immediate → Immediate → Bool
  | .float64 x, .float64 y => x.numEq y
  | x, y => x == y

end Immediate

namespace Operand

/-- The slot that the operand names in an area. -/
def slotIn? : Area → Operand → Option UInt16
  | .locals, .localSlot index => some index
  | .arguments, .argumentSlot index => some index
  | _, _ => .none

/-- The operand that names a slot. -/
def ofSlot : Area → UInt16 → Operand
  | .locals, index => .localSlot index
  | .arguments, index => .argumentSlot index

/-- The operand as it stands in a listing; empty if there is none. -/
def text : Operand → String
  | .none => ""
  | .immediate value => value.text
  | .target index => "IL_" ++ Text.decimal 4 index
  | .token name => name.text
  | .localSlot index => "V_" ++ toString index.toNat
  | .argumentSlot index => "A_" ++ toString index.toNat

/-- The operand with the name of its kind, as error messages show it. -/
def dump : Operand → String
  | .none => "None"
  | .immediate value => "Immediate(" ++ value.dump ++ ")"
  | .target index => "Target(" ++ toString index ++ ")"
  | .token name => "Token(" ++ name.dump ++ ")"
  | .localSlot index => "Local(" ++ toString index.toNat ++ ")"
  | .argumentSlot index => "Argument(" ++ toString index.toNat ++ ")"

/-- Equality of operands, floating-point numbers by value. -/
def numEq : Operand → Operand → Bool
  | .immediate x, .immediate y => x.numEq y
  | x, y => x == y

end Operand

end LocalRecovery
