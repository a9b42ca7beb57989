import LocalRecovery.Engine
import LocalRecovery.Proofs.Session

set_option autoImplicit false

/-! # Engines with a single recovery

An engine whose only pass is a recovery processes all types and then finalizes. It ends at the first
error, which a session does not, so the two are the same for runs that succeed (`run_single`).
-/

namespace LocalRecovery

variable {τ : Type} [ModulePass τ]

/-- Visiting types without an error is a session of calls of `process`. -/
theorem visitTypes_recovery (p : Recovery) (mod : Module) (tokens : List Token) {changedTypes : Nat}
    (h : (visitTypes (.inl p : Recovery ⊕ τ) mod tokens).result = .ok changedTypes) :
    let visit := visitTypes (.inl p : Recovery ⊕ τ) mod tokens
    let s := p.session mod (tokens.map .process)
    s.Succeeds ∧ visit.pass = .inl s.pass ∧ visit.mod = s.mod ∧ visit.journal = s.journal := by
  induction tokens generalizing p mod changedTypes with
  | nil => exact ⟨fun r hr => absurd hr List.not_mem_nil, rfl, rfl, rfl⟩
  | cons token rest ih =>
      -- a recovery is interested in every type
      have hrun : ModulePass.shouldRun (.inl p : Recovery ⊕ τ) token mod = true := rfl
      have hprocess : ModulePass.process (.inl p : Recovery ⊕ τ) mod token
          = (p.process mod token).mapPass .inl := rfl
      rw [visitTypes, if_pos hrun, hprocess] at h ⊢
      simp only [Step.mapPass] at h ⊢
      cases hresult : (p.process mod token).result with
      | error e =>
          simp only [hresult] at h
          cases h
      | ok changed =>
          simp only [hresult] at h ⊢
          cases hothers : (visitTypes (.inl (p.process mod token).pass : Recovery ⊕ τ)
              (p.process mod token).mod rest).result with
          | error e =>
              rw [hothers] at h
              cases h
          | ok others =>
              obtain ⟨hok, hpass, hmod, hjournal⟩ := ih _ _ hothers
              refine ⟨fun r hr => ?_, hpass, hmod, ?_⟩
              · rcases List.mem_cons.mp hr with rfl | hr
                · exact ⟨changed, hresult⟩
                · exact hok r hr
              · exact congrArg ((p.process mod token).journal ++ ·) hjournal

/-- `finalize` of a recovery does not fail, as a pass among others neither. -/
theorem finalize_recovery (p : Recovery) (mod : Module) :
    ModulePass.finalize (.inl p : Recovery ⊕ τ) mod
      = { result := .ok (), pass := .inl p, mod := (p.finalize mod).mod
          journal := (p.finalize mod).journal } := by
  obtain ⟨hpass, hresult, _⟩ := p.finalize_cases mod
  show ((p.finalize mod).mapPass .inl : Step (Recovery ⊕ τ) Unit) = _
  unfold Step.mapPass
  rw [hpass, hresult]

/-- A recovery that runs without an error processes all types and finalizes, between the events for
the start and the end of the pass. -/
theorem runPass_recovery (p : Recovery) (mod : Module) {totals : Totals}
    (h : (runPass (.inl p : Recovery ⊕ τ) mod).result = .ok totals) :
    let r := runPass (.inl p : Recovery ⊕ τ) mod
    let s := p.session mod (mod.typeTokens.map .process)
    s.Succeeds ∧ r.mod = (s.pass.finalize s.mod).mod ∧
      totals = { summaries := s.pass.summaries, changes := .ofNat s.pass.redirects, passes := 1 } ∧
      ∃ changedTypes : Nat,
        r.journal.events = (startJournal p mod).events ++ s.journal.events
          ++ (s.pass.finalize s.mod).journal.events ++ (endJournal s.pass changedTypes).events := by
  cases hvisit : (visitTypes (.inl p : Recovery ⊕ τ) mod mod.typeTokens).result with
  | error e =>
      unfold runPass at h
      simp only [hvisit] at h
      cases h
  | ok changedTypes =>
      obtain ⟨hok, hpass, hmod, hjournal⟩ := visitTypes_recovery p mod mod.typeTokens hvisit
      generalize p.session mod (mod.typeTokens.map .process) = s at *
      unfold runPass at h ⊢
      simp only [hvisit, hpass, hmod, finalize_recovery, true_and] at h ⊢
      cases h
      refine ⟨hok, rfl, changedTypes, ?_⟩
      simp only [Journal.events_append, hjournal]
      rfl

namespace Engine

variable {e : Engine τ} {p : Recovery} {mod : Module} {time : Duration} {report : Report}

/-- **The run of a single recovery.** The report is that of the calls for all types and of
`finalize`. -/
theorem run_single (he : e.passes = [.inl p]) (h : Engine.report (e.run mod) time = .ok report) :
    let s := p.session mod (mod.typeTokens.map .process)
    s.Succeeds ∧ (e.run mod).mod = (s.pass.finalize s.mod).mod ∧
      report.changes = .ofNat s.pass.redirects ∧ report.summaries = s.pass.summaries ∧
      ∃ changedTypes : Nat,
        report.events.events = (startJournal p mod).events ++ s.journal.events
          ++ (s.pass.finalize s.mod).journal.events ++ (endJournal s.pass changedTypes).events := by
  unfold Engine.run at h ⊢
  rw [he] at h ⊢
  unfold Engine.report runPasses at h
  unfold runPasses
  cases hfirst : (runPass (.inl p : Recovery ⊕ τ) mod).result with
  | error e =>
      simp only [hfirst] at h
      cases h
  | ok totals =>
      obtain ⟨hok, hmod, rfl, changedTypes, hevents⟩ := runPass_recovery p mod hfirst
      -- no pass follows, so nothing is added behind the totals and the journal
      simp only [hfirst, runPasses] at h ⊢
      cases h
      refine ⟨hok, hmod, ?_, ?_, changedTypes, ?_⟩
      · exact UInt64.add_zero _
      · exact List.append_nil _
      · exact (List.append_nil _).trans hevents

end Engine

end LocalRecovery
