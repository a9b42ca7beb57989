import LocalRecovery.Instruction.Basic

set_option autoImplicit false

/-! # Code and where its instructions lie

Code is a list of instructions. Its offsets are the running sums of the instruction sizes; the last
one is the size of the whole. A branch reaches its target by a displacement in bytes, counted from
the end of the branch, and a short branch has one signed byte for it.
-/

namespace LocalRecovery

/-- The instructions of a body. -/
abbrev Code := List Instruction

namespace Code

/-- The number of bytes. -/
def size (code : Code) : Nat :=
  code.foldr (fun i bytes => i.size + bytes) 0

/-- The offset of each instruction and of the end, for code that starts at `start`. -/
def offsetsFrom (start : Nat) : Code → List Nat
  | [] => [start]
  | i :: rest => start :: offsetsFrom (start + i.size) rest

/-- The offset of each instruction and of the end. -/
def offsets (code : Code) : Array Nat :=
  (offsetsFrom 0 code).toArray

/-- The distance from the end of the branch at `index` to the instruction at `target`, if the branch
were spelled with `opcode` and everything else stayed as `offsets` says. A target behind the branch
moves along with the end of the branch. There is no distance to a target past the end. -/
def displacement? (offsets : Array Nat) (index target : Nat) (opcode : Opcode) : Option Int :=
  match offsets[index]?, offsets[index + 1]?, offsets[target]? with
  | some start, some next, some goal =>
      let width : Int := opcode.size
      let goal : Int := if index < target then goal - ((next : Int) - start) + width else goal
      some (goal - (start + width))
  | _, _, _ => none

/-- Can the distance be written in one signed byte? -/
def inShortRange (distance : Int) : Bool :=
  decide (-128 ≤ distance) && decide (distance ≤ 127)

/-- Would the branch at `index`, spelled with `opcode`, reach `target` with one signed byte? -/
def reaches (offsets : Array Nat) (index target : Nat) (opcode : Opcode) : Bool :=
  (displacement? offsets index target opcode).any inShortRange

/-- Short branches to targets within reach, and instructions whose operands fit: what can be
written down as bytes. -/
def Encodable (code : Code) : Prop :=
  (∀ i ∈ code, i.fits = true) ∧
  ∀ (index target : Nat) (condition : Condition),
    code[index]? = some ⟨.branch condition .short, .target target⟩ →
    reaches code.offsets index target (.branch condition .short) = true

end Code

end LocalRecovery
