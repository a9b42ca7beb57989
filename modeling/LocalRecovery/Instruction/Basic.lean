import LocalRecovery.Error

set_option autoImplicit false

/-! # Instructions

An instruction is an opcode with an operand. The structure itself allows any pair;
`Instruction.fits` singles out the pairs that can be encoded, and `Instruction.build` makes only
those. The readers (`slotAccess?`, `constant?`, `target?`, `fieldToken?`) say what an instruction
does, whichever spelling it has.
-/

namespace LocalRecovery

/-- An opcode with an operand. -/
structure Instruction where
  opcode : Opcode
  operand : Operand := .none
  deriving DecidableEq

namespace Instruction

/-! ## Well-formed instructions -/

/-- Does the opcode take the operand? -/
def fits (i : Instruction) : Bool :=
  i.opcode.operandKind.admits i.operand

/-- The instruction of an opcode and an operand that fits it. -/
def build (opcode : Opcode) (operand : Operand) : Except Error Instruction :=
  if (Instruction.mk opcode operand).fits then .ok ⟨opcode, operand⟩
  else .error (.operandMismatch opcode operand)

/-- The number of bytes. -/
def size (i : Instruction) : Nat :=
  i.opcode.size

/-! ## Spellings -/

/-- The access to a slot with the operand in one byte or two. -/
def slotByIndex (access : SlotAccess) (index : UInt16) : Instruction :=
  ⟨.slot access (if index ≤ 255 then .short else .long), .ofSlot access.area index⟩

/-- The shortest instruction for an access to a slot. -/
def ofSlot (access : SlotAccess) (index : UInt16) : Instruction :=
  match access.fixed? with
  | some slot =>
      if h : index.toNat < 4 then ⟨.fixedSlot slot ⟨index.toNat, h⟩, .none⟩
      else slotByIndex access index
  | none => slotByIndex access index

/-- The shortest instruction that loads a 32-bit constant. -/
def ofConstant (value : Int32) : Instruction :=
  if value = -1 then ⟨.constant .minusOne, .none⟩
  else if h : 0 ≤ value.toInt ∧ value.toInt < 9 then
    ⟨.constant (.digit ⟨value.toInt.toNat, by omega⟩), .none⟩
  else if -128 ≤ value.toInt ∧ value.toInt ≤ 127 then
    ⟨.constant .short, .immediate (.int8 value.toInt8)⟩
  else ⟨.constant .long, .immediate (.int32 value)⟩

/-! ## Readers -/

/-- The access to a slot that the instruction performs, and the slot. A fixed-slot opcode says both
by itself and its operand plays no part. -/
def slotAccess? (i : Instruction) : Option (SlotAccess × UInt16) :=
  match i.opcode with
  | .fixedSlot slot index => some (slot.access, UInt16.ofNat index)
  | .slot access _ => (i.operand.slotIn? access.area).map fun index => (access, index)
  | _ => none

/-- The slot of an area that the instruction touches. -/
def slotIn? (area : Area) (i : Instruction) : Option UInt16 :=
  match i.slotAccess? with
  | some (access, index) => if access.area = area then some index else none
  | none => none

/-- The local variable that the instruction touches. -/
def localIndex? (i : Instruction) : Option UInt16 :=
  i.slotIn? .locals

/-- The argument that the instruction touches. -/
def argumentIndex? (i : Instruction) : Option UInt16 :=
  i.slotIn? .arguments

/-- The 32-bit constant that the instruction loads. -/
def constant? (i : Instruction) : Option Int32 :=
  match i.opcode, i.operand with
  | .constant .minusOne, _ => some (-1)
  | .constant (.digit value), _ => some (Int32.ofNat value)
  | .constant .short, .immediate (.int8 value) => some value.toInt32
  | .constant .long, .immediate (.int32 value) => some value
  | _, _ => none

/-- The index of the instruction that a branch leads to. -/
def target? (i : Instruction) : Option Nat :=
  match i.opcode, i.operand with
  | .branch _ _, .target index => some index
  | _, _ => none

/-- The field that the instruction accesses. -/
def fieldToken? (i : Instruction) : Option Token :=
  match i.opcode, i.operand with
  | .field _ _, .token token => some token
  | _, _ => none

/-! ## Text and comparison -/

/-- The instruction as it stands in a listing. -/
def text (i : Instruction) : String :=
  match i.operand with
  | .none => i.opcode.mnemonic
  | operand => i.opcode.mnemonic ++ " " ++ operand.text

/-- Equality of instructions, floating-point constants by value. -/
def numEq (i j : Instruction) : Bool :=
  i.opcode == j.opcode && i.operand.numEq j.operand

end Instruction

end LocalRecovery
