import LocalRecovery.Code.Layout

set_option autoImplicit false

/-! # The shortest spelling of code

`Code.shrink` gives every instruction its shortest spelling without changing what it does.

* Slot accesses and constants have a shortest spelling of their own (`Instruction.compact`).
* Branches depend on the layout. First the short branches that cannot reach their target become
  long (`Code.widen`); this may push other targets out of reach, so it is repeated. Then the long
  branches that would reach as short ones become short (`Code.shorten`), again until none is left.

Each of the two runs sweep by sweep; a sweep judges all branches by the offsets at its start.
-/

namespace LocalRecovery

/-- Repeats `step` for as long as it lowers `measure`. -/
def settle {α : Type} (step : α → α) (measure : α → Nat) (x : α) : α :=
  let next := step x
  if measure next < measure x then settle step measure next else x
termination_by measure x

namespace Instruction

/-- The shortest spelling of a slot access or a constant; any other instruction stays as it is. -/
def compact (i : Instruction) : Instruction :=
  match i.slotAccess?, i.constant? with
  | some (access, index), _ => ofSlot access index
  | none, some value => ofConstant value
  | none, none => i

/-- Is this a branch of the given width with a target? -/
def isBranch (width : Width) (i : Instruction) : Bool :=
  match i.opcode, i.operand with
  | .branch _ w, .target _ => w == width
  | _, _ => false

/-- The long spelling of a short branch at `index` that does not reach its target. -/
def widenAt (offsets : Array Nat) (index : Nat) (i : Instruction) : Instruction :=
  match i with
  | ⟨.branch condition .short, .target target⟩ =>
      if Code.reaches offsets index target (.branch condition .short) then i
      else ⟨.branch condition .long, .target target⟩
  | _ => i

/-- The short spelling of a long branch at `index` that reaches its target with it. -/
def shortenAt (offsets : Array Nat) (index : Nat) (i : Instruction) : Instruction :=
  match i with
  | ⟨.branch condition .long, .target target⟩ =>
      if Code.reaches offsets index target (.branch condition .short) then
        ⟨.branch condition .short, .target target⟩
      else i
  | _ => i

end Instruction

namespace Code

/-- The number of branches of a width. -/
def branchCount (width : Width) (code : Code) : Nat :=
  code.countP (Instruction.isBranch width)

/-- One sweep that widens what does not reach. -/
def widenSweep (code : Code) : Code :=
  code.mapIdx (Instruction.widenAt code.offsets)

/-- Short branches that do not reach become long, until every one reaches. -/
def widen (code : Code) : Code :=
  settle widenSweep (branchCount .short) code

/-- One sweep that shortens what reaches. -/
def shortenSweep (code : Code) : Code :=
  code.mapIdx (Instruction.shortenAt code.offsets)

/-- Long branches that would reach as short ones become short, until there is none. -/
def shorten (code : Code) : Code :=
  settle shortenSweep (branchCount .long) code

/-- The shortest spelling of every instruction. -/
def shrink (code : Code) : Code :=
  shorten (widen (code.map Instruction.compact))

/-- The number of places at which two lists of instructions have different opcodes. -/
def respelled (before after : Code) : Nat :=
  (before.zip after).countP fun pair => pair.1.opcode != pair.2.opcode

end Code

end LocalRecovery
