import LocalRecovery.Decimal.Binary64
import LocalRecovery.Signature

set_option autoImplicit false

/-! # Fields

A field has a name, a type, a word of flags and perhaps a constant as its default value. A field is
*eligible* to be turned into local variables if it is static, can be accessed from other types and
has no default value.
-/

namespace LocalRecovery

/-! ## Constants -/

/-- A constant stored with a field. -/
inductive Constant where
  | boolean (value : Bool)
  | int32 (value : Int32)
  | int64 (value : Int64)
  | float64 (value : Binary64)
  | string (value : String)
  | null
  deriving DecidableEq

/-- Equality of constants, floating-point numbers by value. -/
def Constant.numEq : Constant → Constant → Bool
  | .float64 x, .float64 y => x.numEq y
  | x, y => x == y

/-! ## Flags -/

/-- From where a field can be accessed. -/
inductive Visibility where
  | privateScope
  | privateAccess
  | familyAndAssembly
  | assembly
  | family
  | familyOrAssembly
  | publicAccess
  deriving DecidableEq

namespace Visibility

/-- All visibilities, the narrowest first. -/
def all : List Visibility :=
  [ .privateScope, .privateAccess, .familyAndAssembly, .assembly, .family, .familyOrAssembly,
    .publicAccess ]

/-- The keyword for a visibility. -/
def text : Visibility → String
  | .privateScope => "privatescope"
  | .privateAccess => "private"
  | .familyAndAssembly => "famandassem"
  | .assembly => "assembly"
  | .family => "family"
  | .familyOrAssembly => "famorassem"
  | .publicAccess => "public"

/-- Can the field be accessed from its own type only? -/
def isRestricted : Visibility → Bool
  | .privateScope => true
  | .privateAccess => true
  | _ => false

end Visibility

/-- The flags of a field. Bits without a meaning here are kept. -/
structure FieldFlags where
  bits : UInt32
  deriving DecidableEq

namespace FieldFlags

/-- The bit of fields that belong to their type. -/
def staticBit : UInt32 := 0x0010

/-- The bit of fields with a default value. -/
def defaultBit : UInt32 := 0x8000

/-- Is the bit set? -/
def has (f : FieldFlags) (bit : UInt32) : Bool :=
  f.bits &&& bit == bit

/-- The flags with the bit set. -/
def set (f : FieldFlags) (bit : UInt32) : FieldFlags :=
  ⟨f.bits ||| bit⟩

/-- The lowest three bits are the visibility; the unassigned value counts as the narrowest one. -/
def visibility (f : FieldFlags) : Visibility :=
  match (f.bits &&& 7).toNat with
  | 1 => .privateAccess
  | 2 => .familyAndAssembly
  | 3 => .assembly
  | 4 => .family
  | 5 => .familyOrAssembly
  | 6 => .publicAccess
  | _ => .privateScope

end FieldFlags

/-! ## Fields -/

/-- A field of a type. -/
structure Field where
  token : Token
  name : String
  flags : FieldFlags
  signature : Signature
  default : Option Constant := none
  deriving DecidableEq

namespace Field

/-- Does the field belong to its type? -/
def isStatic (f : Field) : Bool :=
  f.flags.has FieldFlags.staticBit

/-- From where the field can be accessed. -/
def visibility (f : Field) : Visibility :=
  f.flags.visibility

/-- A default value is announced by a flag or simply there. -/
def hasDefault (f : Field) : Bool :=
  f.flags.has FieldFlags.defaultBit || f.default.isSome

/-- The field with a default value and the flag that announces it. -/
def withDefault (f : Field) (value : Constant) : Field :=
  { f with flags := f.flags.set FieldFlags.defaultBit, default := some value }

/-- Can the field be turned into local variables? -/
def isEligible (f : Field) : Bool :=
  f.isStatic && !f.visibility.isRestricted && !f.hasDefault

/-- Equality of fields, floating-point constants by value. -/
def numEq (f g : Field) : Bool :=
  f.token == g.token && f.name == g.name && f.flags == g.flags && f.signature == g.signature
    && match f.default, g.default with
      | some x, some y => x.numEq y
      | none, none => true
      | _, _ => false

end Field

end LocalRecovery
