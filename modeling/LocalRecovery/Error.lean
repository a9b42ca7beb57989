import LocalRecovery.Instruction.Operand
import LocalRecovery.Opcode.Table

set_option autoImplicit false

/-! # Errors

Everything that can go wrong, with the data that a reader of the message needs.
-/

namespace LocalRecovery

/-- The cause of a failure. -/
inductive Error where
  /-- Something about the input is malformed, as found at a line of a file. -/
  | malformed (message : String) (file : String) (line : Nat)
  /-- An operand that its opcode does not take. -/
  | operandMismatch (opcode : Opcode) (operand : Operand)
  | typeNotFound (token : Token)
  | methodNotFound (token : Token)
  /-- A method that has used up the numbers for its local variables. -/
  | localLimit (method : Token)
  deriving DecidableEq

namespace Error

/-- What is wrong, without the place where it was found. -/
def reason : Error → String
  | .malformed message _ _ => message
  | .operandMismatch opcode operand =>
      "Operand " ++ operand.dump ++ " does not fit opcode " ++ opcode.mnemonic
  | .typeNotFound token => "Failed to find type in module - " ++ token.text
  | .methodNotFound token => "Failed to find method in module - " ++ token.text
  | .localLimit method => "Method " ++ method.text ++ " has no free local variable slot"

/-- The full message. -/
def message : Error → String
  | .malformed message file line =>
      "Malformed - " ++ file ++ ":" ++ toString line ++ ": " ++ message
  | .operandMismatch opcode operand =>
      "Malformed - " ++ reason (.operandMismatch opcode operand)
  | e => e.reason

end Error

theorem map_eq_error_iff {α β : Type} {x : Except Error α} {f : α → β} {e : Error} :
    x.map f = .error e ↔ x = .error e := by
  cases x <;> simp [Except.map]

theorem map_eq_ok_iff {α β : Type} {x : Except Error α} {f : α → β} {b : β} :
    x.map f = .ok b ↔ ∃ a, x = .ok a ∧ f a = b := by
  cases x <;> simp [Except.map]

end LocalRecovery
