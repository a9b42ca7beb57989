import LocalRecovery.Pass.Basic

set_option autoImplicit false

/-! # Scripted passes

A pass whose behaviour is given as data: which types it skips, on which it fails, which types it
adds and removes on the way. Scripts show how an engine treats its passes without any of the work
of a real one.
-/

namespace LocalRecovery

/-- A pass that does as it is told. -/
structure Script where
  name : String
  /-- Do the recorded events name the pass? -/
  signed : Bool := true
  /-- Types that are not processed. -/
  skip : List Token := []
  /-- Types that count as changed. -/
  changed : List Token := []
  /-- Must the processed type exist? -/
  lookup : Bool := false
  /-- Types on which processing fails. -/
  failOn : List (Token × Error) := []
  /-- Types that processing another one adds. -/
  addOn : List (Token × TypeDef) := []
  /-- Types that processing another one removes. -/
  removeOn : List (Token × Token) := []
  /-- The error at the end, if any. -/
  finalError : Option Error := none
  changes : UInt64 := 0
  summaries : List Summary := []
  deriving DecidableEq

namespace Script

/-- The error with which processing a type begins, if any. A missing type comes first. -/
def failure? (s : Script) (mod : Module) (token : Token) : Option Error :=
  match s.lookup, mod.type token with
  | true, .error e => some e
  | _, _ => (s.failOn.find? fun entry => entry.1 == token).map Prod.snd

/-- The module after the additions and the removals that belong to a type. -/
def edit (s : Script) (mod : Module) (token : Token) : Module :=
  let added := (s.addOn.filter fun entry => entry.1 == token).map Prod.snd
  let removed := (s.removeOn.filter fun entry => entry.1 == token).map Prod.snd
  removed.foldl Module.removeTypes (added.foldl Module.addType mod)

/-- The event that processing a type records. -/
def visit (s : Script) (token : Token) : Event :=
  { kind := .info
    message := "visited " ++ token.text
    pass := if s.signed then some s.name else none }

/-- Processes one type. -/
def process (s : Script) (mod : Module) (token : Token) : Step Script Bool :=
  match s.failure? mod token with
  | some e => { result := .error e, pass := s, mod }
  | none =>
      { result := .ok (s.changed.contains token)
        pass := s
        mod := s.edit mod token
        journal := { events := [s.visit token] } }

/-- Ends with the scripted error. -/
def finalize (s : Script) (mod : Module) : Step Script Unit :=
  match s.finalError with
  | some e => { result := .error e, pass := s, mod }
  | none => { result := .ok (), pass := s, mod }

instance : ModulePass Script where
  name := Script.name
  shouldRun s token _ := !s.skip.contains token
  process := Script.process
  finalize := Script.finalize
  changeCount := Script.changes
  summaries := Script.summaries

end Script

end LocalRecovery
