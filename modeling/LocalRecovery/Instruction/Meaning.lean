import LocalRecovery.Instruction.Basic

set_option autoImplicit false

/-! # What an instruction does

Several instructions can do the same thing: `ldloc.1`, `ldloc.s V_1` and `ldloc V_1` load the same
variable. `Instruction.meaning` forgets the spelling and keeps the effect, so that two instructions
with one meaning can stand for each other. Instructions without a choice of spelling mean
themselves.
-/

namespace LocalRecovery

/-- The effect of an instruction, apart from its spelling. -/
inductive Meaning where
  | slot (access : SlotAccess) (index : UInt16)
  | constant (value : Int32)
  | branch (condition : Condition) (target : Nat)
  | itself (instruction : Instruction)
  deriving DecidableEq

/-- The effect of an instruction. -/
def Instruction.meaning (i : Instruction) : Meaning :=
  match i.slotAccess?, i.constant?, i.opcode, i.operand with
  | some (access, index), _, _, _ => .slot access index
  | none, some value, _, _ => .constant value
  | none, none, .branch condition _, .target index => .branch condition index
  | none, none, _, _ => .itself i

end LocalRecovery
