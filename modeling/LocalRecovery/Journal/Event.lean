import LocalRecovery.Token

set_option autoImplicit false

/-! # Events

An event says what a pass did or noticed, and where. The kinds fall into changes to the module,
remarks, and steps of the run itself.
-/

namespace LocalRecovery

/-- The kind of an event. -/
inductive EventKind where
  | accessRedirected
  | localCreated
  | artifactRemoved
  | candidateIdentified
  | passStarted
  | passCompleted
  | info
  | warning
  deriving DecidableEq

namespace EventKind

/-- All kinds. -/
def all : List EventKind :=
  [ .accessRedirected, .localCreated, .artifactRemoved, .candidateIdentified, .passStarted,
    .passCompleted, .info, .warning ]

/-- The kind in words. -/
def description : EventKind → String
  | .accessRedirected => "access rewritten"
  | .localCreated => "local created"
  | .artifactRemoved => "artifact removed"
  | .candidateIdentified => "candidate identified"
  | .passStarted => "pass started"
  | .passCompleted => "pass completed"
  | .info => "info"
  | .warning => "warning"

/-- Does an event of this kind report a change to the module? -/
def isTransformation : EventKind → Bool
  | .accessRedirected => true
  | .localCreated => true
  | .artifactRemoved => true
  | _ => false

/-- Is an event of this kind a remark? -/
def isDiagnostic : EventKind → Bool
  | .info => true
  | .warning => true
  | _ => false

end EventKind

/-- Something that happened. -/
structure Event where
  kind : EventKind
  method : Option Token := none
  location : Option Nat := none
  message : String := kind.description
  pass : Option String := none
  deriving DecidableEq

namespace Event

/-- The event, in a method. -/
def inMethod (e : Event) (method : Token) : Event :=
  { e with method := some method }

/-- The event, at an instruction of a method. -/
def atIndex (e : Event) (method : Token) (index : Nat) : Event :=
  { e with method := some method, location := some index }

/-- The event with a message. -/
def saying (e : Event) (message : String) : Event :=
  { e with message }

/-- The event, recorded by a pass. -/
def fromPass (e : Event) (pass : String) : Event :=
  { e with pass := some pass }

/-- The event on one line. -/
def text (e : Event) : String :=
  match e.method with
  | some method => "[" ++ e.kind.description ++ "] " ++ method.text ++ ": " ++ e.message
  | none => "[" ++ e.kind.description ++ "] " ++ e.message

end Event

end LocalRecovery
