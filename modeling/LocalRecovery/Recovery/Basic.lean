import LocalRecovery.Pass.Basic

set_option autoImplicit false

/-! # Local variables kept as fields

Some programs keep the local variables of their methods in static fields of the global type. The
recovery of such variables knows

* the *candidates*: the eligible fields of the global type, collected once, when the first type is
  looked at;
* the *bindings*: for each candidate and each method that accesses it, the local variable that
  takes its place there;
* the number of accesses that were dealt with.
-/

namespace LocalRecovery

/-- What the recovery is asked to do. -/
structure RecoveryConfig where
  /-- Remove the fields that became local variables. -/
  removeFields : Bool := true
  /-- Record an event for every access that is redirected. -/
  recordAccesses : Bool := true
  /-- Give changed code its shortest spelling. -/
  shrinkCode : Bool := true
  deriving DecidableEq

/-- The configuration that leaves the fields in place. -/
def RecoveryConfig.keepFields : RecoveryConfig :=
  { removeFields := false }

/-! ## Candidates -/

/-- A field that may be a local variable in disguise. -/
structure Candidate where
  token : Token
  name : String
  signature : Signature
  deriving DecidableEq

namespace Candidate

/-- What the recovery remembers of a field. -/
def ofField (f : Field) : Candidate :=
  ⟨f.token, f.name, f.signature⟩

/-- The eligible fields. Of several with one token the last counts. -/
def collect : List Field → List Candidate
  | [] => []
  | f :: rest =>
      let later := collect rest
      if f.isEligible && !later.any (fun c => c.token == f.token) then ofField f :: later
      else later

/-- The candidate with a token. -/
def find? (candidates : List Candidate) (field : Token) : Option Candidate :=
  candidates.find? fun c => c.token == field

/-- The candidates by ascending token. -/
def sort (candidates : List Candidate) : List Candidate :=
  candidates.mergeSort fun c d => c.token.le d.token

end Candidate

/-! ## Bindings -/

/-- The local variable that takes the place of a field in a method. -/
structure Binding where
  field : Token
  method : Token
  slot : UInt16
  deriving DecidableEq

/-- The local variable for a field in a method. -/
def Binding.find? (bindings : List Binding) (field method : Token) : Option UInt16 :=
  (bindings.find? fun b => b.field == field && b.method == method).map Binding.slot

/-! ## The state of the recovery -/

/-- The recovery of local variables. There are no candidates before the first look at a module. -/
structure Recovery where
  config : RecoveryConfig := {}
  candidates : Option (List Candidate) := none
  bindings : List Binding := []
  redirects : Nat := 0
  deriving DecidableEq

namespace Recovery

/-- The name under which events are recorded. -/
def passName : String := "hoisted-locals"

/-- The local variable for a field in a method. -/
def binding? (p : Recovery) (field method : Token) : Option UInt16 :=
  Binding.find? p.bindings field method

/-- Has the field become a local variable of some method? -/
def isConverted (p : Recovery) (field : Token) : Bool :=
  p.bindings.any fun b => b.field == field

/-- The fields that have become local variables, by ascending token. -/
def convertedFields (p : Recovery) : List Token :=
  Token.sort (p.bindings.map Binding.field).eraseDups

/-- What is recorded about a candidate. -/
def candidateEvent (f : Field) : Event :=
  { kind := .candidateIdentified
    message := "Candidate field " ++ f.name ++ " " ++ f.token.tag
    pass := some passName }

/-- What is logged about a candidate. -/
def candidateMessage (f : Field) : Message :=
  { level := .debug
    text := "Hoisted local candidate: " ++ f.name ++ " " ++ f.token.tag ++ " (" ++ f.signature.text
      ++ ")" }

/-- Collects the candidates, unless that has been done before. -/
def locate (p : Recovery) (mod : Module) : Recovery × Journal :=
  match p.candidates with
  | some _ => (p, {})
  | none =>
      let fields := (mod.global?.map TypeDef.fields).getD []
      let eligible := fields.filter Field.isEligible
      ({ p with candidates := some (Candidate.collect fields) },
        { events := eligible.map candidateEvent, messages := eligible.map candidateMessage })

/-- The candidate with a token. -/
def candidate? (p : Recovery) (field : Token) : Option Candidate :=
  Candidate.find? (p.candidates.getD []) field

end Recovery

end LocalRecovery
