import LocalRecovery.Recovery.Redirect

set_option autoImplicit false

/-! # The recovery as a pass

For each type the accesses in its methods are redirected. At the end the fields that became local
variables are removed, and every instruction that still names one of them is reported.
-/

namespace LocalRecovery

/-! ## References to fields -/

/-- An instruction that accesses a field. -/
structure FieldReference where
  method : Token
  index : Nat
  opcode : Opcode
  field : Token
  deriving DecidableEq

/-- The accesses to fields in the code of a method, in order. -/
def Code.fieldReferences (method : Token) (code : Code) : List FieldReference :=
  code.zipIdx.filterMap fun (i, index) =>
    i.fieldToken?.map fun field => ⟨method, index, i.opcode, field⟩

/-- The accesses to fields in a method, in order. -/
def Method.fieldReferences (m : Method) : List FieldReference :=
  match m.body with
  | none => []
  | some b => b.code.fieldReferences m.token

/-- The accesses to fields in a module, in order. -/
def Module.fieldReferences (mod : Module) : List FieldReference :=
  mod.types.flatMap fun t => t.methods.flatMap Method.fieldReferences

namespace Recovery

/-! ## Types -/

/-- Redirects the accesses in the methods of a type. -/
def process (p : Recovery) (mod : Module) (token : Token) : Step Recovery Bool :=
  let (p, found) := p.locate mod
  let work (t : TypeDef) : Redirection (List Method) × TypeDef :=
    let r := p.redirectMethods t.methods
    (r, { t with methods := r.part })
  match mod.updateType token work with
  | .error e => { result := .error e, pass := p, mod, journal := found }
  | .ok (r, mod) =>
      { result := r.result, pass := r.pass, mod, journal := found ++ r.journal }

/-! ## The end -/

/-- What is recorded about a removed field. -/
def removalEvent (f : Field) : Event :=
  { kind := .artifactRemoved
    message := "Removing field " ++ f.token.tag
    pass := some passName }

/-- What is logged about a removed field. -/
def removalMessage (f : Field) : Message :=
  { level := .debug, text := "Removing field " ++ f.name ++ " " ++ f.token.tag }

/-- What is recorded about an access to a field that is no longer there. -/
def danglingEvent (r : FieldReference) : Event :=
  { kind := .warning
    method := some r.method
    location := some r.index
    message := r.opcode.mnemonic ++ " references removed field " ++ r.field.tag
    pass := some passName }

/-- What is logged about an access to a field that is no longer there. -/
def danglingMessage (r : FieldReference) : Message :=
  { level := .warn
    text := r.opcode.mnemonic ++ " in " ++ r.method.tag ++ " at IL_" ++ Text.decimal 4 r.index
      ++ " still references removed field " ++ r.field.tag }

/-- The global type without the fields that became local variables, and those fields. -/
def removeConverted (p : Recovery) (t : TypeDef) : List Field × TypeDef :=
  let (removed, kept) := t.fields.partition fun f => p.isConverted f.token
  (removed, { t with fields := kept })

/-- Removes the fields that became local variables and reports what still refers to them. -/
def finalize (p : Recovery) (mod : Module) : Step Recovery Unit :=
  if p.config.removeFields && !p.bindings.isEmpty then
    match mod.updateGlobal? p.removeConverted with
    | none => { result := .ok (), pass := p, mod }
    | some (removed, mod) =>
        let dangling := mod.fieldReferences.filter fun r =>
          removed.any fun f => f.token == r.field
        { result := .ok ()
          pass := p
          mod
          journal :=
            { events := removed.map removalEvent ++ dangling.map danglingEvent
              messages := removed.map removalMessage ++ dangling.map danglingMessage } }
  else { result := .ok (), pass := p, mod }

/-- One line if there was anything to do. -/
def summaries (p : Recovery) : List Summary :=
  if p.redirects = 0 then []
  else [{ message := "Removed " ++ toString p.redirects ++ " local-to-field implementations" }]

instance : ModulePass Recovery where
  name _ := passName
  description _ := "Converts static <Module> fields used as locals back into method locals"
  process := Recovery.process
  finalize := Recovery.finalize
  changeCount p := .ofNat p.redirects
  summaries := Recovery.summaries

end Recovery

end LocalRecovery
