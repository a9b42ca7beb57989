import LocalRecovery.Opcode.Basic

set_option autoImplicit false

/-! # The table of opcodes

`Opcode.all` lists the opcodes by ascending encoding, those of one byte first. Reading an opcode
from its bytes (`Opcode.ofEncoding?`) or from its name (`Opcode.ofMnemonic?`) is a search in this
list, and each inverts the function that writes them.
-/

namespace LocalRecovery

/-! ## Names -/

/-- What the name of a short form ends in. -/
def Width.mark : Width → String
  | .short => ".s"
  | .long => ""

/-- The name that the forms of an access share. -/
def SlotAccess.mnemonic : SlotAccess → String
  | ⟨.arguments, .read⟩ => "ldarg"
  | ⟨.arguments, .address⟩ => "ldarga"
  | ⟨.arguments, .write⟩ => "starg"
  | ⟨.locals, .read⟩ => "ldloc"
  | ⟨.locals, .address⟩ => "ldloca"
  | ⟨.locals, .write⟩ => "stloc"

/-- The name that the two forms of a branch share. -/
def Condition.mnemonic : Condition → String
  | .always => "br"
  | .ifFalse => "brfalse"
  | .ifTrue => "brtrue"
  | .equal => "beq"
  | .greaterEqual => "bge"
  | .greater => "bgt"
  | .lessEqual => "ble"
  | .less => "blt"
  | .notEqual => "bne.un"

/-- The name of a plain opcode. -/
def PlainOp.mnemonic : PlainOp → String
  | .nop => "nop"
  | .loadNull => "ldnull"
  | .duplicate => "dup"
  | .pop => "pop"
  | .ret => "ret"
  | .loadIndirect => "ldind.i4"
  | .storeIndirect => "stind.i4"
  | .add => "add"
  | .sub => "sub"
  | .mul => "mul"
  | .div => "div"
  | .rem => "rem"
  | .and => "and"
  | .or => "or"
  | .xor => "xor"
  | .convert => "conv.i4"
  | .throw => "throw"
  | .compareEqual => "ceq"
  | .compareGreater => "cgt"
  | .compareLess => "clt"

namespace Opcode

/-- The name of an opcode. -/
def mnemonic : Opcode → String
  | .plain op => op.mnemonic
  | .fixedSlot fixed index => fixed.access.mnemonic ++ "." ++ toString index.val
  | .slot access width => access.mnemonic ++ width.mark
  | .constant .minusOne => "ldc.i4.m1"
  | .constant (.digit value) => "ldc.i4." ++ toString value.val
  | .constant .short => "ldc.i4.s"
  | .constant .long => "ldc.i4"
  | .constant64 => "ldc.i8"
  | .constantFloat => "ldc.r8"
  | .branch condition width => condition.mnemonic ++ width.mark
  | .call .call => "call"
  | .call .callVirtual => "callvirt"
  | .call .newObject => "newobj"
  | .field .object .read => "ldfld"
  | .field .object .address => "ldflda"
  | .field .object .write => "stfld"
  | .field .static .read => "ldsfld"
  | .field .static .address => "ldsflda"
  | .field .static .write => "stsfld"
  | .loadString => "ldstr"
  | .loadToken => "ldtoken"

/-! ## The table -/

/-- The four opcodes of a fixed-slot access. -/
def fixedSlots (slot : FixedSlot) : List Opcode :=
  [.fixedSlot slot 0, .fixedSlot slot 1, .fixedSlot slot 2, .fixedSlot slot 3]

/-- The six slot accesses of one width. -/
def slots (width : Width) : List Opcode :=
  [ .slot ⟨.arguments, .read⟩ width, .slot ⟨.arguments, .address⟩ width,
    .slot ⟨.arguments, .write⟩ width, .slot ⟨.locals, .read⟩ width,
    .slot ⟨.locals, .address⟩ width, .slot ⟨.locals, .write⟩ width ]

/-- The spellings of a 32-bit constant. -/
def constants : List Opcode :=
  [ .constant .minusOne, .constant (.digit 0), .constant (.digit 1), .constant (.digit 2),
    .constant (.digit 3), .constant (.digit 4), .constant (.digit 5), .constant (.digit 6),
    .constant (.digit 7), .constant (.digit 8), .constant .short, .constant .long ]

/-- The nine branches of one width. -/
def branches (width : Width) : List Opcode :=
  [ .branch .always width, .branch .ifFalse width, .branch .ifTrue width, .branch .equal width,
    .branch .greaterEqual width, .branch .greater width, .branch .lessEqual width,
    .branch .less width, .branch .notEqual width ]

/-- The three accesses to fields of one storage. -/
def fields (storage : Storage) : List Opcode :=
  [.field storage .read, .field storage .address, .field storage .write]

/-- Every opcode, by ascending encoding. -/
def all : List Opcode :=
  [.plain .nop]
    ++ fixedSlots .loadArgument ++ fixedSlots .loadLocal ++ fixedSlots .storeLocal
    ++ slots .short
    ++ [.plain .loadNull]
    ++ constants
    ++ [.constant64, .constantFloat, .plain .duplicate, .plain .pop, .call .call, .plain .ret]
    ++ branches .short ++ branches .long
    ++ [ .plain .loadIndirect, .plain .storeIndirect, .plain .add, .plain .sub, .plain .mul,
         .plain .div, .plain .rem, .plain .and, .plain .or, .plain .xor, .plain .convert,
         .call .callVirtual, .loadString, .call .newObject, .plain .throw ]
    ++ fields .object ++ fields .static
    ++ [.loadToken, .plain .compareEqual, .plain .compareGreater, .plain .compareLess]
    ++ slots .long

/-- The opcode with the given bytes. -/
def ofEncoding? (e : Encoding) : Option Opcode :=
  all.find? fun op => op.encoding == e

/-- The opcode of the given name. -/
def ofMnemonic? (name : String) : Option Opcode :=
  all.find? fun op => op.mnemonic == name

/-- The second bytes that decode behind a lead byte, ascending, with what they decode to. -/
def decodeTable (lead : UInt8) : List (UInt8 × Opcode) :=
  (List.range 256).filterMap fun code =>
    (ofEncoding? ⟨lead, UInt8.ofNat code⟩).map fun op => (UInt8.ofNat code, op)

/-! ## Reading inverts writing -/

/-- The table is complete. -/
theorem mem_all (op : Opcode) : op ∈ all := by
  cases op with
  | plain op => cases op <;> decide
  | fixedSlot slot index => revert index; cases slot <;> decide
  | slot access width =>
      rcases access with ⟨area, kind⟩
      cases area <;> cases kind <;> cases width <;> decide
  | constant form =>
      cases form with
      | digit value => revert value; decide
      | _ => decide
  | branch condition width => cases condition <;> cases width <;> decide
  | call op => cases op <;> decide
  | field storage kind => cases storage <;> cases kind <;> decide
  | _ => decide

/-- No two opcodes share an encoding: what is written is read back. -/
theorem ofEncoding?_encoding (op : Opcode) : ofEncoding? op.encoding = some op := by
  have table : ∀ op ∈ all, ofEncoding? op.encoding = some op := by decide +kernel
  exact table op (mem_all op)

/-- No two opcodes share a name. -/
theorem ofMnemonic?_mnemonic (op : Opcode) : ofMnemonic? op.mnemonic = some op := by
  have table : ∀ op ∈ all, ofMnemonic? op.mnemonic = some op := by decide +kernel
  exact table op (mem_all op)

end Opcode

end LocalRecovery
