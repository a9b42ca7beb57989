import LocalRecovery.Token

set_option autoImplicit false

/-! # Signatures

The types of fields and local variables, as far as they are told apart.
-/

namespace LocalRecovery

/-- The types that need no token. -/
inductive Primitive where
  | boolean
  | char
  | int8
  | uint8
  | int16
  | uint16
  | int32
  | uint32
  | int64
  | uint64
  | float32
  | float64
  | nativeInt
  | nativeUInt
  | string
  | object
  deriving DecidableEq

/-- The name of a primitive type. -/
def Primitive.text : Primitive → String
  | .boolean => "bool"
  | .char => "char"
  | .int8 => "int8"
  | .uint8 => "uint8"
  | .int16 => "int16"
  | .uint16 => "uint16"
  | .int32 => "int32"
  | .uint32 => "uint32"
  | .int64 => "int64"
  | .uint64 => "uint64"
  | .float32 => "float32"
  | .float64 => "float64"
  | .nativeInt => "native int"
  | .nativeUInt => "native uint"
  | .string => "string"
  | .object => "object"

/-- The type of a field or a local variable. -/
inductive Signature where
  | unknown
  | primitive (type : Primitive)
  | byRef (inner : Signature)
  | valueType (token : Token)
  | reference (token : Token)
  | array (element : Signature)
  deriving DecidableEq

namespace Signature

/-- A type that could not be resolved. -/
def isUnknown : Signature → Bool
  | .unknown => true
  | _ => false

/-- The type as it is written in a listing. -/
def text : Signature → String
  | .unknown => "?"
  | .primitive type => type.text
  | .byRef inner => inner.text ++ "&"
  | .valueType token => "valuetype " ++ token.text
  | .reference token => "class " ++ token.text
  | .array element => element.text ++ "[]"

end Signature

end LocalRecovery
