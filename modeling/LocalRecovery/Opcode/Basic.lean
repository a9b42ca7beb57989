set_option autoImplicit false

/-! # Opcodes

The opcodes are grouped by what they do, so that the different spellings of one operation stand
next to each other: a branch is a condition and a width, an access to a local variable or an
argument is an area, a kind and a width.

Each opcode has an encoding of one or two bytes (`Opcode.encoding`), wants an operand of a certain
kind (`Opcode.operandKind`), and therefore has a fixed size (`Opcode.size`).
-/

namespace LocalRecovery

/-! ## What opcodes are made of -/

/-- Operands of slots and branches come in two widths. -/
inductive Width where
  | short
  | long
  deriving DecidableEq

/-- What is done with a variable or a field: its value is loaded, a value is stored into it, or its
address is taken. -/
inductive AccessKind where
  | read
  | write
  | address
  deriving DecidableEq

/-- The two areas of numbered slots of a running method. -/
inductive Area where
  | locals
  | arguments
  deriving DecidableEq

/-- An access to a slot. -/
structure SlotAccess where
  area : Area
  kind : AccessKind
  deriving DecidableEq

/-- The accesses that have opcodes of their own for each of the slots 0 to 3. -/
inductive FixedSlot where
  | loadArgument
  | loadLocal
  | storeLocal
  deriving DecidableEq

/-- The access that a fixed-slot opcode performs. -/
def FixedSlot.access : FixedSlot → SlotAccess
  | .loadArgument => ⟨.arguments, .read⟩
  | .loadLocal => ⟨.locals, .read⟩
  | .storeLocal => ⟨.locals, .write⟩

/-- The fixed-slot opcodes for an access, if there are any. -/
def SlotAccess.fixed? : SlotAccess → Option FixedSlot
  | ⟨.arguments, .read⟩ => some .loadArgument
  | ⟨.locals, .read⟩ => some .loadLocal
  | ⟨.locals, .write⟩ => some .storeLocal
  | _ => none

/-- How a 32-bit constant is spelled: as one of the values -1 to 8 within the opcode, in one byte or
in four. -/
inductive ConstantForm where
  | minusOne
  | digit (value : Fin 9)
  | short
  | long
  deriving DecidableEq

/-- When a branch is taken. -/
inductive Condition where
  | always
  | ifFalse
  | ifTrue
  | equal
  | greaterEqual
  | greater
  | lessEqual
  | less
  | notEqual
  deriving DecidableEq

/-- Fields belong to an object or to their type. -/
inductive Storage where
  | object
  | static
  deriving DecidableEq

/-- The opcodes that name a method. -/
inductive CallOp where
  | call
  | callVirtual
  | newObject
  deriving DecidableEq

/-- The opcodes without operand that are not a spelling of a slot access or a constant. -/
inductive PlainOp where
  | nop
  | loadNull
  | duplicate
  | pop
  | ret
  | loadIndirect
  | storeIndirect
  | add
  | sub
  | mul
  | div
  | rem
  | and
  | or
  | xor
  | convert
  | throw
  | compareEqual
  | compareGreater
  | compareLess
  deriving DecidableEq

/-- An opcode. -/
inductive Opcode where
  | plain (op : PlainOp)
  | fixedSlot (fixed : FixedSlot) (index : Fin 4)
  | slot (access : SlotAccess) (width : Width)
  | constant (form : ConstantForm)
  | constant64
  | constantFloat
  | branch (condition : Condition) (width : Width)
  | call (op : CallOp)
  | field (storage : Storage) (kind : AccessKind)
  | loadString
  | loadToken
  deriving DecidableEq

/-! ## Operand kinds -/

/-- What a token operand refers to. -/
inductive Reference where
  | field
  | method
  | userString
  | anything
  deriving DecidableEq

/-- The kind of operand that an opcode wants. -/
inductive OperandKind where
  | none
  | slot (width : Width)
  | int8
  | int32
  | int64
  | float64
  | token (reference : Reference)
  | target (width : Width)
  deriving DecidableEq

/-- The number of bytes that an operand takes up. -/
def OperandKind.size : OperandKind → Nat
  | .none => 0
  | .slot .short => 1
  | .slot .long => 2
  | .int8 => 1
  | .int32 => 4
  | .int64 => 8
  | .float64 => 8
  | .token _ => 4
  | .target .short => 1
  | .target .long => 4

/-! ## Encodings -/

/-- The bytes of an opcode. The lead byte is zero for an opcode of one byte. -/
structure Encoding where
  lead : UInt8
  code : UInt8
  deriving DecidableEq

namespace Encoding

/-- An opcode of one byte. -/
def single (code : UInt8) : Encoding := ⟨0x00, code⟩

/-- An opcode of two bytes. -/
def double (code : UInt8) : Encoding := ⟨0xFE, code⟩

/-- The number of bytes. -/
def size (e : Encoding) : Nat :=
  if e.lead = 0 then 1 else 2

end Encoding

/-- The position of an access among the six opcodes of one width. -/
def SlotAccess.position : SlotAccess → UInt8
  | ⟨.arguments, .read⟩ => 0
  | ⟨.arguments, .address⟩ => 1
  | ⟨.arguments, .write⟩ => 2
  | ⟨.locals, .read⟩ => 3
  | ⟨.locals, .address⟩ => 4
  | ⟨.locals, .write⟩ => 5

/-- The position of a condition among the nine branches of one width. -/
def Condition.position : Condition → UInt8
  | .always => 0
  | .ifFalse => 1
  | .ifTrue => 2
  | .equal => 3
  | .greaterEqual => 4
  | .greater => 5
  | .lessEqual => 6
  | .less => 7
  | .notEqual => 8

/-- The position of an access among the three opcodes of one storage. -/
def AccessKind.position : AccessKind → UInt8
  | .read => 0
  | .address => 1
  | .write => 2

/-- The bytes of a plain opcode. -/
def PlainOp.encoding : PlainOp → Encoding
  | .nop => .single 0x00
  | .loadNull => .single 0x14
  | .duplicate => .single 0x25
  | .pop => .single 0x26
  | .ret => .single 0x2A
  | .loadIndirect => .single 0x4A
  | .storeIndirect => .single 0x54
  | .add => .single 0x58
  | .sub => .single 0x59
  | .mul => .single 0x5A
  | .div => .single 0x5B
  | .rem => .single 0x5D
  | .and => .single 0x5F
  | .or => .single 0x60
  | .xor => .single 0x61
  | .convert => .single 0x69
  | .throw => .single 0x7A
  | .compareEqual => .double 0x01
  | .compareGreater => .double 0x02
  | .compareLess => .double 0x04

/-- The byte of the fixed-slot opcode for slot 0; the others follow it. -/
def FixedSlot.base : FixedSlot → UInt8
  | .loadArgument => 0x02
  | .loadLocal => 0x06
  | .storeLocal => 0x0A

namespace Opcode

/-- The bytes of an opcode. -/
def encoding : Opcode → Encoding
  | .plain op => op.encoding
  | .fixedSlot fixed index => .single (fixed.base + UInt8.ofNat index)
  | .slot access .short => .single (0x0E + access.position)
  | .slot access .long => .double (0x09 + access.position)
  | .constant .minusOne => .single 0x15
  | .constant (.digit value) => .single (0x16 + UInt8.ofNat value)
  | .constant .short => .single 0x1F
  | .constant .long => .single 0x20
  | .constant64 => .single 0x21
  | .constantFloat => .single 0x23
  | .branch condition .short => .single (0x2B + condition.position)
  | .branch condition .long => .single (0x38 + condition.position)
  | .call .call => .single 0x28
  | .call .callVirtual => .single 0x6F
  | .call .newObject => .single 0x73
  | .field .object kind => .single (0x7B + kind.position)
  | .field .static kind => .single (0x7E + kind.position)
  | .loadString => .single 0x72
  | .loadToken => .single 0xD0

/-- The kind of operand that an opcode wants. -/
def operandKind : Opcode → OperandKind
  | .plain _ => .none
  | .fixedSlot _ _ => .none
  | .slot _ width => .slot width
  | .constant .minusOne => .none
  | .constant (.digit _) => .none
  | .constant .short => .int8
  | .constant .long => .int32
  | .constant64 => .int64
  | .constantFloat => .float64
  | .branch _ width => .target width
  | .call _ => .token .method
  | .field _ _ => .token .field
  | .loadString => .token .userString
  | .loadToken => .token .anything

/-- The number of bytes of an instruction with this opcode. -/
def size (op : Opcode) : Nat :=
  op.encoding.size + op.operandKind.size

/-- The short spelling of a long branch. -/
def shortBranch? : Opcode → Option Opcode
  | .branch condition .long => some (.branch condition .short)
  | _ => none

/-- What an opcode does with a field of a type. Accesses to fields of objects are not among them. -/
def staticAccess? : Opcode → Option AccessKind
  | .field .static kind => some kind
  | _ => none

/-- The opcode that does to a local variable what `kind` says. -/
def localAccess (kind : AccessKind) : Opcode :=
  .slot ⟨.locals, kind⟩ .long

end Opcode

end LocalRecovery
