import LocalRecovery.Journal.Basic
import LocalRecovery.Module.Basic
import LocalRecovery.Summary

set_option autoImplicit false

/-! # Passes

A pass works through a module type by type and is then told that the module is complete. It is a
value that carries its own state: each call gives back the pass as it is afterwards.

A call can fail half way. What it did until then is not undone, so a `Step` holds the new pass, the
new module and the journal whatever the result is.
-/

namespace LocalRecovery

/-- What a call of a pass gives back. -/
structure Step (σ α : Type) where
  result : Except Error α
  pass : σ
  mod : Module
  journal : Journal := {}

/-- Values that are passes. -/
class ModulePass (σ : Type) where
  /-- The name under which the pass records events. -/
  name : σ → String
  /-- What the pass does. -/
  description : σ → String := fun _ => "No description available"
  /-- Is the pass interested in a type? -/
  shouldRun : σ → Token → Module → Bool := fun _ _ _ => true
  /-- Works on one type and says whether it changed anything. -/
  process : σ → Module → Token → Step σ Bool
  /-- Is called when all types have been processed. -/
  finalize : σ → Module → Step σ Unit := fun pass mod => { result := .ok (), pass, mod }
  /-- The number of changes so far, as a machine word. -/
  changeCount : σ → UInt64 := fun _ => 0
  /-- What there is to tell about the work. -/
  summaries : σ → List Summary := fun _ => []

namespace Step

/-- The step of a pass as a step of another form of it. -/
def mapPass {σ τ α : Type} (f : σ → τ) (s : Step σ α) : Step τ α :=
  { s with pass := f s.pass }

end Step

/-- Passes of two types side by side. -/
instance {σ τ : Type} [ModulePass σ] [ModulePass τ] : ModulePass (σ ⊕ τ) where
  name := Sum.elim ModulePass.name ModulePass.name
  description := Sum.elim ModulePass.description ModulePass.description
  shouldRun := Sum.elim ModulePass.shouldRun ModulePass.shouldRun
  process := Sum.elim (fun p mod t => (ModulePass.process p mod t).mapPass .inl)
    (fun p mod t => (ModulePass.process p mod t).mapPass .inr)
  finalize := Sum.elim (fun p mod => (ModulePass.finalize p mod).mapPass .inl)
    (fun p mod => (ModulePass.finalize p mod).mapPass .inr)
  changeCount := Sum.elim ModulePass.changeCount ModulePass.changeCount
  summaries := Sum.elim ModulePass.summaries ModulePass.summaries

end LocalRecovery
