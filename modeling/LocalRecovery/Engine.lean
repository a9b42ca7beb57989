import LocalRecovery.Recovery.Pass
import LocalRecovery.Report

set_option autoImplicit false

/-! # Engines

An engine runs passes over a module, one after the other. Each pass sees the types that the module
has when the pass begins; types that it adds are left to the passes after it. The first error ends
the run. The passes and the module keep what was done to them, also after an error.
-/

namespace LocalRecovery

/-! ## One pass -/

/-- What passes contribute to a report. -/
structure Totals where
  summaries : List Summary := []
  changes : UInt64 := 0
  passes : Nat := 0
  deriving DecidableEq

/-- The contributions of passes that ran one after the other. The changes are added as machine words:
a sum that does not fit wraps around. -/
instance : Add Totals where
  add first second :=
    { summaries := first.summaries ++ second.summaries
      changes := first.changes + second.changes
      passes := first.passes + second.passes }

namespace Totals

@[simp] theorem summaries_add (first second : Totals) :
    (first + second).summaries = first.summaries ++ second.summaries := rfl

@[simp] theorem changes_add (first second : Totals) :
    (first + second).changes = first.changes + second.changes := rfl

@[simp] theorem passes_add (first second : Totals) :
    (first + second).passes = first.passes + second.passes := rfl

theorem add_assoc (first second third : Totals) :
    first + second + third = first + (second + third) := by
  show Totals.mk _ _ _ = Totals.mk _ _ _
  simp only [summaries_add, changes_add, passes_add, List.append_assoc, UInt64.add_assoc,
    Nat.add_assoc]

theorem nil_add (t : Totals) : {} + t = t := by
  show Totals.mk _ _ _ = t
  simp only [List.nil_append, UInt64.zero_add, Nat.zero_add]

end Totals

section Passes

variable {σ : Type} [ModulePass σ]

open ModulePass

/-- The journal at the start of a pass. -/
def startJournal (p : σ) (mod : Module) : Journal :=
  { events :=
      [{ kind := .passStarted, message := "Starting pass: " ++ name p, pass := some (name p) }]
    messages := [⟨.debug, "Running pass " ++ name p ++ " on " ++ mod.name⟩] }

/-- The journal of a pass that fails on a type. -/
def failureJournal (p : σ) (token : Token) (e : Error) : Journal :=
  { messages :=
      [⟨.error, "Pass " ++ name p ++ " failed on " ++ token.tag ++ ": " ++ e.message⟩] }

/-- The journal at the end of a pass that changed some types. -/
def endJournal (p : σ) (changedTypes : Nat) : Journal :=
  { events :=
      [{ kind := .passCompleted
         message := "Completed pass: " ++ name p ++ " (" ++ toString changedTypes
           ++ " types changed)"
         pass := some (name p) }]
    messages := (summaries p).map fun s => ⟨.info, name p ++ ": " ++ s.text⟩ }

/-- Processes the types with the given tokens, up to the first error, and counts those that
changed. -/
def visitTypes (p : σ) (mod : Module) : List Token → Step σ Nat
  | [] => { result := .ok 0, pass := p, mod }
  | token :: rest =>
      if shouldRun p token mod then
        let s := process p mod token
        match s.result with
        | .error e =>
            { result := .error e
              pass := s.pass
              mod := s.mod
              journal := s.journal ++ failureJournal s.pass token e }
        | .ok changed =>
            let others := visitTypes s.pass s.mod rest
            { others with
              result := others.result.map (changed.toNat + ·)
              journal := s.journal ++ others.journal }
      else visitTypes p mod rest

/-- Runs one pass over a module. -/
def runPass (p : σ) (mod : Module) : Step σ Totals :=
  let start := startJournal p mod
  let visit := visitTypes p mod mod.typeTokens
  match visit.result with
  | .error e => { visit with result := .error e, journal := start ++ visit.journal }
  | .ok changedTypes =>
      let last := finalize visit.pass visit.mod
      let journal := start ++ visit.journal ++ last.journal
      match last.result with
      | .error e => { last with result := .error e, journal }
      | .ok _ =>
          let totals : Totals :=
            { summaries := summaries last.pass, changes := changeCount last.pass, passes := 1 }
          { last with
            result := .ok totals
            journal := journal ++ endJournal last.pass changedTypes }

/-! ## Several passes -/

/-- What is left after running passes over a module. -/
structure Run (σ : Type) where
  result : Except Error Totals
  passes : List σ
  mod : Module
  journal : Journal := {}

/-- Runs passes over a module, one after the other, up to the first error. -/
def runPasses : List σ → Module → Run σ
  | [], mod => { result := .ok {}, passes := [], mod }
  | p :: rest, mod =>
      let first := runPass p mod
      match first.result with
      | .error e =>
          { result := .error e, passes := first.pass :: rest, mod := first.mod,
            journal := first.journal }
      | .ok totals =>
          let others := runPasses rest first.mod
          { result := others.result.map (totals + ·)
            passes := first.pass :: others.passes
            mod := others.mod
            journal := first.journal ++ others.journal }

end Passes

/-! ## The engine -/

/-- Which of the built-in passes run, and how. -/
structure EngineConfig where
  recoverLocals : Bool := true
  recovery : RecoveryConfig := {}
  deriving DecidableEq

/-- The configuration without built-in passes. -/
def EngineConfig.empty : EngineConfig :=
  { recoverLocals := false }

/-- A configuration with the passes that it asks for and passes of a further type. -/
structure Engine (τ : Type) where
  config : EngineConfig
  passes : List (Recovery ⊕ τ)

namespace Engine

variable {τ : Type}

/-- The engine with the built-in passes of a configuration. -/
def ofConfig (config : EngineConfig) : Engine τ where
  config
  passes := if config.recoverLocals then [.inl { config := config.recovery }] else []

/-- The engine with one more pass at the end. -/
def withPass (e : Engine τ) (pass : Recovery ⊕ τ) : Engine τ :=
  { e with passes := e.passes ++ [pass] }

variable [ModulePass τ]

/-- The names of the passes, in order. -/
def passNames (e : Engine τ) : List String :=
  e.passes.map ModulePass.name

/-- Runs all passes over a module. -/
def run (e : Engine τ) (mod : Module) : Run (Recovery ⊕ τ) :=
  runPasses e.passes mod

/-- The report of a run that took some time; the error if it failed. -/
def report (r : Run (Recovery ⊕ τ)) (time : Duration) : Except Error Report :=
  r.result.map fun totals =>
    { events := ⟨r.journal.events⟩
      summaries := totals.summaries
      changes := totals.changes
      passes := totals.passes
      time }

end Engine

end LocalRecovery
