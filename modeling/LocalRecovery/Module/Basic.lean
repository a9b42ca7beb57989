import LocalRecovery.Field
import LocalRecovery.Module.Method

set_option autoImplicit false

/-! # Types and modules

A module is a list of types, a type a list of fields and a list of methods. Tokens should be
unique, but nothing enforces it: whatever is looked up by token is the first entry that has it.

The *global type* holds the fields and methods that belong to no other type. It is recognised by its
name, and `Module.ensureGlobal` creates it where it is missing.
-/

namespace LocalRecovery

/-- Replaces the first element that satisfies `p` by what `update` makes of it, and returns what
`update` reports; nothing if no element does. -/
def updateFirst? {α β : Type} (p : α → Bool) (update : α → β × α) : List α → Option (β × List α)
  | [] => none
  | a :: rest =>
      if p a then
        let (report, b) := update a
        some (report, b :: rest)
      else (updateFirst? p update rest).map fun (report, rest) => (report, a :: rest)

/-! ## Types -/

/-- A type of a module. -/
structure TypeDef where
  token : Token
  space : String
  name : String
  fields : List Field := []
  methods : List Method := []
  deriving DecidableEq

namespace TypeDef

/-- The name of the global type. -/
def globalName : String := "<Module>"

/-- Is this the global type? -/
def isGlobal (t : TypeDef) : Bool :=
  t.space == "" && t.name == globalName

/-- The name with the namespace in front, if there is one. -/
def fullName (t : TypeDef) : String :=
  if t.space == "" then t.name else t.space ++ "." ++ t.name

/-- The field with a token. -/
def field? (t : TypeDef) (token : Token) : Option Field :=
  t.fields.find? fun f => f.token == token

/-- The method with a token. -/
def method? (t : TypeDef) (token : Token) : Option Method :=
  t.methods.find? fun m => m.token == token

/-- Equality of types, floating-point constants by value. -/
def numEq (t u : TypeDef) : Bool :=
  t.token == u.token && t.space == u.space && t.name == u.name
    && t.fields.length == u.fields.length
    && ((t.fields.zip u.fields).all fun pair => pair.1.numEq pair.2)
    && t.methods.length == u.methods.length
    && (t.methods.zip u.methods).all fun pair => pair.1.numEq pair.2

end TypeDef

/-! ## Modules -/

/-- A module. -/
structure Module where
  name : String := ""
  types : List TypeDef := []
  deriving DecidableEq

namespace Module

/-- The tokens of the types, in order. -/
def typeTokens (m : Module) : List Token :=
  m.types.map TypeDef.token

/-- The module with one more type at the end. -/
def addType (m : Module) (t : TypeDef) : Module :=
  { m with types := m.types ++ [t] }

/-- The module without the types that have a token. -/
def removeTypes (m : Module) (token : Token) : Module :=
  { m with types := m.types.filter fun t => t.token != token }

/-- The type with a token. -/
def type (m : Module) (token : Token) : Except Error TypeDef :=
  match m.types.find? fun t => t.token == token with
  | some t => .ok t
  | none => .error (.typeNotFound token)

/-- Changes the type with a token. -/
def updateType {β : Type} (m : Module) (token : Token) (update : TypeDef → β × TypeDef) :
    Except Error (β × Module) :=
  match updateFirst? (fun t => t.token == token) update m.types with
  | some (report, types) => .ok (report, { m with types })
  | none => .error (.typeNotFound token)

/-- The method with a token, in whichever type. -/
def method (m : Module) (token : Token) : Except Error Method :=
  match m.types.findSome? fun t => t.method? token with
  | some method => .ok method
  | none => .error (.methodNotFound token)

/-- Changes the method with a token, in whichever type. -/
def updateMethod {β : Type} (m : Module) (token : Token) (update : Method → β × Method) :
    Except Error (β × Module) :=
  let inType (t : TypeDef) : Option β × TypeDef :=
    match updateFirst? (fun x => x.token == token) update t.methods with
    | some (report, methods) => (some report, { t with methods })
    | none => (none, t)
  match updateFirst? (fun t => (t.method? token).isSome) inType m.types with
  | some (some report, types) => .ok (report, { m with types })
  | _ => .error (.methodNotFound token)

/-- The field with a token, in whichever type. -/
def field? (m : Module) (token : Token) : Option Field :=
  m.types.findSome? fun t => t.field? token

/-! ## The global type -/

/-- The global type. -/
def global? (m : Module) : Option TypeDef :=
  m.types.find? TypeDef.isGlobal

/-- Changes the global type. -/
def updateGlobal? {β : Type} (m : Module) (update : TypeDef → β × TypeDef) : Option (β × Module) :=
  (updateFirst? TypeDef.isGlobal update m.types).map fun (report, types) =>
    (report, { m with types })

/-- The greatest row among the tokens of the types. -/
def lastRow (m : Module) : Nat :=
  (m.types.map fun t => t.token.row.toNat).foldl max 0

/-- An empty global type in the row after the last one. -/
def newGlobal (m : Module) : TypeDef where
  token := .ofParts Token.typeTable (UInt32.ofNat (m.lastRow + 1))
  space := ""
  name := TypeDef.globalName

/-- The module with a global type, which goes in front of the others if it is new. -/
def ensureGlobal (m : Module) : Module :=
  match m.global? with
  | some _ => m
  | none => { m with types := m.newGlobal :: m.types }

/-- Equality of modules, floating-point constants by value. -/
def numEq (m n : Module) : Bool :=
  m.name == n.name && m.types.length == n.types.length
    && (m.types.zip n.types).all fun pair => pair.1.numEq pair.2

end Module

end LocalRecovery
