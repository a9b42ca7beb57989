import LocalRecovery.Code.Shrink
import LocalRecovery.Signature

set_option autoImplicit false

/-! # Methods

A method may have a body: local variables and code. The variables are numbered from 0 in the order
of their declaration, and a body can number at most `Body.localLimit` of them.
-/

namespace LocalRecovery

/-- A local variable of a body. -/
structure LocalVariable where
  signature : Signature
  pinned : Bool := false
  deriving DecidableEq

/-- The local variables and the code of a method. -/
structure Body where
  maxStack : Nat := 8
  initLocals : Bool := true
  locals : List LocalVariable := []
  code : Code := []
  deriving DecidableEq

/-- A method of a type. -/
structure Method where
  token : Token
  name : String
  body : Option Body := none
  deriving DecidableEq

namespace Body

/-- The greatest number of local variables of a body. -/
def localLimit : Nat := 65535

/-- The number for one more local variable, unless all are taken. -/
def freshSlot? (locals : List LocalVariable) : Option UInt16 :=
  if locals.length < localLimit then some (UInt16.ofNat locals.length) else none

/-- Declares one more local variable, behind the others, and returns its number. -/
def addLocal? (b : Body) (v : LocalVariable) : Option (UInt16 × Body) :=
  (freshSlot? b.locals).map fun slot => (slot, { b with locals := b.locals ++ [v] })

/-- The body with the shortest spelling of its code. -/
def shrink (b : Body) : Body :=
  { b with code := b.code.shrink }

/-- Equality of bodies, floating-point constants by value. -/
def numEq (b c : Body) : Bool :=
  b.maxStack == c.maxStack && b.initLocals == c.initLocals && b.locals == c.locals
    && b.code.length == c.code.length
    && (b.code.zip c.code).all fun pair => pair.1.numEq pair.2

end Body

/-- Equality of methods, floating-point constants by value. -/
def Method.numEq (m n : Method) : Bool :=
  m.token == n.token && m.name == n.name
    && match m.body, n.body with
      | some b, some c => b.numEq c
      | none, none => true
      | _, _ => false

end LocalRecovery
