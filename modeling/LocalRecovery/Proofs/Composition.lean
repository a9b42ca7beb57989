import LocalRecovery.Engine
import LocalRecovery.Pass.Script
import LocalRecovery.Proofs.Session

set_option autoImplicit false

/-! # Runs one after the other

An engine runs its passes one after the other on one module, whatever they are: each may skip types,
change the module, add or remove types and fail. Running more passes behind others is the same as a
second run on the module that the first has left (`runPasses_append_of_ok`), unless the first fails
(`runPasses_append_of_error`). What the two runs report is joined (`report_append`); their changes are
added as machine words (`toNat_changes_append`).

A run fails when `process` fails on a type or when `finalize` fails (`PassFails`), and the passes
and the module are left as they are after that call (`runPasses_error_inv`).
-/

namespace LocalRecovery

section

variable {σ : Type} [ModulePass σ]

open ModulePass

/-! ## One pass -/

theorem visitTypes_cons_of_skip {p : σ} {mod : Module} {token : Token}
    (h : shouldRun p token mod = false) (rest : List Token) :
    visitTypes p mod (token :: rest) = visitTypes p mod rest := by
  rw [visitTypes, h, if_neg Bool.false_ne_true]

theorem visitTypes_cons_of_error {p : σ} {mod : Module} {token : Token} {e : Error}
    (hrun : shouldRun p token mod = true) (h : (process p mod token).result = .error e)
    (rest : List Token) :
    visitTypes p mod (token :: rest)
      = { result := .error e, pass := (process p mod token).pass, mod := (process p mod token).mod
          journal := (process p mod token).journal
            ++ failureJournal (process p mod token).pass token e } := by
  rw [visitTypes, if_pos hrun]
  simp only [h]

theorem visitTypes_cons_of_ok {p : σ} {mod : Module} {token : Token} {changed : Bool}
    (hrun : shouldRun p token mod = true) (h : (process p mod token).result = .ok changed)
    (rest : List Token) :
    let s := process p mod token
    let others := visitTypes s.pass s.mod rest
    visitTypes p mod (token :: rest)
      = { others with
          result := others.result.map (changed.toNat + ·)
          journal := s.journal ++ others.journal } := by
  intro s others
  rw [visitTypes, if_pos hrun]
  simp only [h, s, others]

/-- A visit that fails ends with the type on which `process` fails. -/
theorem visitTypes_error_inv {p : σ} {mod : Module} {tokens : List Token} {e : Error}
    (h : (visitTypes p mod tokens).result = .error e) :
    ∃ before token after changedTypes, tokens = before ++ token :: after ∧
      let visit := visitTypes p mod before
      let last := process visit.pass visit.mod token
      visit.result = .ok changedTypes ∧ shouldRun visit.pass token visit.mod = true ∧
        last.result = .error e ∧ (visitTypes p mod tokens).pass = last.pass ∧
        (visitTypes p mod tokens).mod = last.mod := by
  induction tokens generalizing p mod with
  | nil => cases h
  | cons token rest ih =>
      cases hrun : shouldRun p token mod with
      | false =>
          rw [visitTypes_cons_of_skip hrun] at h
          obtain ⟨before, t, after, changedTypes, rfl, hlast⟩ := ih h
          refine ⟨token :: before, t, after, changedTypes, rfl, ?_⟩
          rw [visitTypes_cons_of_skip hrun, visitTypes_cons_of_skip hrun]
          exact hlast
      | true =>
          cases hresult : (process p mod token).result with
          | error e' =>
              rw [visitTypes_cons_of_error hrun hresult] at h
              refine ⟨[], token, rest, 0, rfl, rfl, hrun, ?_, ?_⟩
              · exact hresult.trans (congrArg Except.error (Except.error.inj h))
              · rw [visitTypes_cons_of_error hrun hresult]
                exact ⟨rfl, rfl⟩
          | ok changed =>
              rw [visitTypes_cons_of_ok hrun hresult] at h
              obtain ⟨before, t, after, changedTypes, rfl, hok, hlast⟩ :=
                ih (map_eq_error_iff.mp h)
              refine ⟨token :: before, t, after, changed.toNat + changedTypes, rfl, ?_⟩
              rw [visitTypes_cons_of_ok hrun hresult, visitTypes_cons_of_ok hrun hresult, hok]
              exact ⟨rfl, hlast⟩

/-- How a pass comes to fail with an error, and in which state it leaves itself and the module. -/
inductive PassFails (p : σ) (mod : Module) (e : Error) : σ → Module → Prop
  /-- It fails on a type. Those in front have been visited, those behind have not. -/
  | onType {before after : List Token} {token : Token} {changedTypes : Nat}
      (tokens : mod.typeTokens = before ++ token :: after)
      (visited : (visitTypes p mod before).result = .ok changedTypes)
      (wanted : shouldRun (visitTypes p mod before).pass token (visitTypes p mod before).mod = true)
      (fails : (process (visitTypes p mod before).pass (visitTypes p mod before).mod token).result
        = .error e) :
      PassFails p mod e
        (process (visitTypes p mod before).pass (visitTypes p mod before).mod token).pass
        (process (visitTypes p mod before).pass (visitTypes p mod before).mod token).mod
  /-- It fails when it is told that all types have been visited. -/
  | atEnd {changedTypes : Nat}
      (visited : (visitTypes p mod mod.typeTokens).result = .ok changedTypes)
      (fails : (finalize (visitTypes p mod mod.typeTokens).pass
        (visitTypes p mod mod.typeTokens).mod).result = .error e) :
      PassFails p mod e
        (finalize (visitTypes p mod mod.typeTokens).pass (visitTypes p mod mod.typeTokens).mod).pass
        (finalize (visitTypes p mod mod.typeTokens).pass (visitTypes p mod mod.typeTokens).mod).mod

theorem runPass_error_inv {p : σ} {mod : Module} {e : Error}
    (h : (runPass p mod).result = .error e) :
    PassFails p mod e (runPass p mod).pass (runPass p mod).mod := by
  unfold runPass at h ⊢
  cases hvisit : (visitTypes p mod mod.typeTokens).result with
  | error e' =>
      simp only [hvisit] at h ⊢
      cases h
      obtain ⟨before, token, after, changedTypes, htokens, hok, hrun, herror, hpass, hmod⟩ :=
        visitTypes_error_inv hvisit
      rw [hpass, hmod]
      exact .onType htokens hok hrun herror
  | ok changedTypes =>
      simp only [hvisit] at h ⊢
      cases hlast : (finalize (visitTypes p mod mod.typeTokens).pass
          (visitTypes p mod mod.typeTokens).mod).result with
      | error e' =>
          simp only [hlast] at h ⊢
          cases h
          exact .atEnd hvisit hlast
      | ok _ =>
          simp only [hlast] at h
          cases h

/-! ## Several passes -/

theorem runPasses_cons_of_error {p : σ} {mod : Module} {e : Error}
    (h : (runPass p mod).result = .error e) (rest : List σ) :
    runPasses (p :: rest) mod
      = { result := .error e, passes := (runPass p mod).pass :: rest, mod := (runPass p mod).mod
          journal := (runPass p mod).journal } := by
  rw [runPasses]
  simp only [h]

theorem runPasses_cons_of_ok {p : σ} {mod : Module} {totals : Totals}
    (h : (runPass p mod).result = .ok totals) (rest : List σ) :
    let first := runPass p mod
    let others := runPasses rest first.mod
    runPasses (p :: rest) mod
      = { result := others.result.map (totals + ·), passes := first.pass :: others.passes
          mod := others.mod, journal := first.journal ++ others.journal } := by
  intro first others
  rw [runPasses]
  simp only [h, first, others]

/-- Passes behind one that failed do not run. -/
theorem runPasses_append_of_error {ps : List σ} {mod : Module} {e : Error}
    (h : (runPasses ps mod).result = .error e) (qs : List σ) :
    runPasses (ps ++ qs) mod
      = { runPasses ps mod with passes := (runPasses ps mod).passes ++ qs } := by
  induction ps generalizing mod with
  | nil => cases h
  | cons p rest ih =>
      rw [List.cons_append]
      cases hfirst : (runPass p mod).result with
      | error e' =>
          rw [runPasses_cons_of_error hfirst, runPasses_cons_of_error hfirst]
          rfl
      | ok totals =>
          rw [runPasses_cons_of_ok hfirst] at h
          rw [runPasses_cons_of_ok hfirst, runPasses_cons_of_ok hfirst, ih (map_eq_error_iff.mp h)]
          rfl

/-- Passes that succeeded hand the module on to those behind them. -/
theorem runPasses_append_of_ok {ps : List σ} {mod : Module} {totals : Totals}
    (h : (runPasses ps mod).result = .ok totals) (qs : List σ) :
    let first := runPasses ps mod
    let second := runPasses qs first.mod
    runPasses (ps ++ qs) mod
      = { result := second.result.map (totals + ·), passes := first.passes ++ second.passes
          mod := second.mod, journal := first.journal ++ second.journal } := by
  induction ps generalizing mod totals with
  | nil =>
      obtain rfl : {} = totals := Except.ok.inj h
      simp only [runPasses, List.nil_append, Journal.nil_append, Totals.nil_add]
      rcases runPasses qs mod with ⟨_ | _, passes, after, journal⟩ <;> rfl
  | cons p rest ih =>
      rw [List.cons_append]
      cases hfirst : (runPass p mod).result with
      | error e' =>
          rw [runPasses_cons_of_error hfirst] at h
          cases h
      | ok totals₁ =>
          rw [runPasses_cons_of_ok hfirst] at h
          obtain ⟨totals₂, hothers, rfl⟩ := map_eq_ok_iff.mp h
          rw [runPasses_cons_of_ok hfirst, runPasses_cons_of_ok hfirst, ih hothers]
          -- what is left is to regroup the journals and the totals
          simp only [Journal.append_assoc, List.cons_append]
          cases (runPasses qs _).result <;> simp [Except.map, Totals.add_assoc]

theorem runPasses_append_eq_ok_iff {ps qs : List σ} {mod : Module} {totals : Totals} :
    let first := runPasses ps mod
    (runPasses (ps ++ qs) mod).result = .ok totals ↔
      ∃ totals₁ totals₂, first.result = .ok totals₁ ∧
        (runPasses qs first.mod).result = .ok totals₂ ∧ totals₁ + totals₂ = totals := by
  intro first
  cases hfirst : first.result with
  | error e =>
      rw [runPasses_append_of_error hfirst, show (runPasses ps mod).result = _ from hfirst]
      simp
  | ok totals₁ =>
      rw [runPasses_append_of_ok hfirst]
      simp only [map_eq_ok_iff, Except.ok.injEq, exists_and_left, exists_eq_left', first]

theorem runPasses_append_eq_error_iff {ps qs : List σ} {mod : Module} {e : Error} :
    let first := runPasses ps mod
    (runPasses (ps ++ qs) mod).result = .error e ↔
      first.result = .error e ∨
        (∃ totals, first.result = .ok totals) ∧ (runPasses qs first.mod).result = .error e := by
  intro first
  cases hfirst : first.result with
  | error e' =>
      rw [runPasses_append_of_error hfirst, show (runPasses ps mod).result = _ from hfirst]
      simp
  | ok totals₁ =>
      rw [runPasses_append_of_ok hfirst]
      simp [map_eq_error_iff, first]

/-- A run that fails ends with the pass that failed. -/
theorem runPasses_error_inv {ps : List σ} {mod : Module} {e : Error}
    (h : (runPasses ps mod).result = .error e) :
    ∃ front p back totals p', ps = front ++ p :: back ∧
      let before := runPasses front mod
      before.result = .ok totals ∧ PassFails p before.mod e p' (runPasses ps mod).mod ∧
        (runPasses ps mod).passes = before.passes ++ p' :: back := by
  induction ps generalizing mod with
  | nil => cases h
  | cons p rest ih =>
      cases hfirst : (runPass p mod).result with
      | error e' =>
          have hfails := runPass_error_inv hfirst
          rw [runPasses_cons_of_error hfirst] at h ⊢
          obtain rfl : e' = e := Except.error.inj h
          exact ⟨[], p, rest, {}, _, rfl, rfl, hfails, rfl⟩
      | ok totals =>
          rw [runPasses_cons_of_ok hfirst] at h ⊢
          obtain ⟨front, q, back, totals', q', rfl, hok, hfails, hpasses⟩ :=
            ih (map_eq_error_iff.mp h)
          refine ⟨p :: front, q, back, totals + totals', q', rfl, ?_⟩
          rw [runPasses_cons_of_ok hfirst, hok]
          exact ⟨rfl, hfails, congrArg (List.cons _) hpasses⟩

end

/-! ## Engines -/

namespace Engine

variable {τ : Type}

theorem report_eq_ok_iff {r : Run (Recovery ⊕ τ)} {time : Duration} {out : Report} :
    report r time = .ok out ↔ ∃ totals, r.result = .ok totals ∧
      { events := ⟨r.journal.events⟩, summaries := totals.summaries, changes := totals.changes
        passes := totals.passes, time } = out :=
  map_eq_ok_iff

variable [ModulePass τ]

/-- The report of two runs, one after the other. -/
theorem report_append {ps qs : List (Recovery ⊕ τ)} {mod : Module} {time : Duration}
    {out : Report} :
    let first := runPasses ps mod
    report (runPasses (ps ++ qs) mod) time = .ok out ↔
      ∃ out₁ out₂, report first time = .ok out₁ ∧
        report (runPasses qs first.mod) time = .ok out₂ ∧
        out = { events := out₁.events.extend out₂.events.events
                summaries := out₁.summaries ++ out₂.summaries
                changes := out₁.changes + out₂.changes
                passes := out₁.passes + out₂.passes
                time } := by
  intro first
  simp only [report_eq_ok_iff, runPasses_append_eq_ok_iff]
  constructor
  · rintro ⟨_, ⟨totals₁, totals₂, hfirst, hsecond, rfl⟩, rfl⟩
    refine ⟨_, _, ⟨totals₁, hfirst, rfl⟩, ⟨totals₂, hsecond, rfl⟩, ?_⟩
    rw [runPasses_append_of_ok hfirst]
    rfl
  · rintro ⟨_, _, ⟨totals₁, hfirst, rfl⟩, ⟨totals₂, hsecond, rfl⟩, rfl⟩
    refine ⟨_, ⟨totals₁, totals₂, hfirst, hsecond, rfl⟩, ?_⟩
    rw [runPasses_append_of_ok hfirst]
    rfl

/-- The changes of two runs are added as machine words. -/
theorem toNat_changes_append {ps qs : List (Recovery ⊕ τ)} {mod : Module} {time : Duration}
    {out out₁ out₂ : Report} (hfirst : report (runPasses ps mod) time = .ok out₁)
    (hsecond : report (runPasses qs (runPasses ps mod).mod) time = .ok out₂)
    (h : report (runPasses (ps ++ qs) mod) time = .ok out) :
    out.changes.toNat = (out₁.changes.toNat + out₂.changes.toNat) % UInt64.size := by
  obtain ⟨out₁', out₂', hfirst', hsecond', rfl⟩ := report_append.mp h
  obtain rfl : out₁ = out₁' := Except.ok.inj (hfirst.symm.trans hfirst')
  obtain rfl : out₂ = out₂' := Except.ok.inj (hsecond.symm.trans hsecond')
  exact UInt64.toNat_add _ _

/-- **Runs compose.** Let the passes of two engines, of whatever kind, run in one engine, those of
the first in front. If the run of the first engine fails, nothing is added to it: the passes of the
second are what they were. If it succeeds, the rest is the run of the second engine on the module
that the first has left. There is a report exactly if both runs have one; its events and summaries
are those of the first and then those of the second, and its changes and passes are the sums. The
changes are machine words, so their sum is that of the numbers unless it wraps around. An error is
the one of the run that failed. The run ends with the call that failed, so that the types and the
passes behind it have not been dealt with. -/
theorem run_composes (first second : Engine τ) (mod : Module) :
    let r₁ := first.run mod
    let r₂ := second.run r₁.mod
    let r := Engine.run { first with passes := first.passes ++ second.passes } mod
    (∀ e, r₁.result = .error e → r = { r₁ with passes := r₁.passes ++ second.passes }) ∧
    (∀ totals, r₁.result = .ok totals →
      r = { result := r₂.result.map (totals + ·), passes := r₁.passes ++ r₂.passes, mod := r₂.mod
            journal := r₁.journal ++ r₂.journal }) ∧
    (∀ time out, report r time = .ok out ↔
      ∃ out₁ out₂, report r₁ time = .ok out₁ ∧ report r₂ time = .ok out₂ ∧
        out = { events := out₁.events.extend out₂.events.events
                summaries := out₁.summaries ++ out₂.summaries
                changes := out₁.changes + out₂.changes
                passes := out₁.passes + out₂.passes
                time }) ∧
    (∀ time out₁ out₂ out, report r₁ time = .ok out₁ → report r₂ time = .ok out₂ →
      report r time = .ok out →
        out.changes.toNat = (out₁.changes.toNat + out₂.changes.toNat) % UInt64.size) ∧
    (∀ e, r.result = .error e ↔
      r₁.result = .error e ∨ (∃ totals, r₁.result = .ok totals) ∧ r₂.result = .error e) ∧
    ∀ e, r.result = .error e →
      ∃ front p back totals p', first.passes ++ second.passes = front ++ p :: back ∧
        let before := Engine.run { first with passes := front } mod
        before.result = .ok totals ∧ PassFails p before.mod e p' r.mod ∧
          r.passes = before.passes ++ p' :: back :=
  ⟨fun _ h => runPasses_append_of_error h second.passes,
    fun _ h => runPasses_append_of_ok h second.passes,
    fun _ _ => report_append,
    fun _ _ _ _ => toNat_changes_append,
    fun _ => runPasses_append_eq_error_iff,
    fun _ h => runPasses_error_inv h⟩

/-- A recovery that counts two changes, followed by a pass that counts two more, by a pass whose count
is the largest word, or by one that fails on its second type, with another one behind it. -/
theorem run_composes_hoistedCounter :
    let first : Engine Script := .ofConfig {}
    let second : Engine Script :=
      { config := .empty, passes := [.inr { name := "count", changes := 2 }] }
    let full : Engine Script :=
      { config := .empty, passes := [.inr { name := "full", changes := .ofNat (2 ^ 64 - 1) }] }
    let third : Engine Script :=
      { config := .empty
        passes :=
          [ .inr { name := "audit", failOn := [(⟨0x02000002⟩, .methodNotFound ⟨0x06000002⟩)] },
            .inr { name := "late" } ] }
    let r := Engine.run { first with passes := first.passes ++ second.passes } hoistedCounter
    let wrapped := Engine.run { first with passes := first.passes ++ full.passes } hoistedCounter
    let r' := Engine.run { first with passes := first.passes ++ third.passes } hoistedCounter
    (∃ out, report r {} = .ok out ∧ out.changes = 4 ∧ out.passes = 2) ∧
      (∃ out, report wrapped {} = .ok out ∧ out.changes = 1 ∧ out.passes = 2) ∧
      r'.result = .error (.methodNotFound ⟨0x06000002⟩) ∧
      ∃ front p back totals p', first.passes ++ third.passes = front ++ p :: back ∧
        let before := Engine.run { first with passes := front } hoistedCounter
        before.result = .ok totals ∧
          PassFails p before.mod (.methodNotFound ⟨0x06000002⟩) p' r'.mod ∧
          r'.passes = before.passes ++ p' :: back := by
  intro first second full third r wrapped r'
  obtain ⟨_, _, hreport, _⟩ := run_composes first second hoistedCounter
  obtain ⟨_, _, hwrapped, _⟩ := run_composes first full hoistedCounter
  obtain ⟨_, _, _, _, hfails, hstops⟩ := run_composes first third hoistedCounter
  have hok : (first.run hoistedCounter).result
      = .ok { summaries := [{ message := "Removed 2 local-to-field implementations" }]
              changes := 2, passes := 1 } := by decide +kernel
  have hcounted : (second.run (first.run hoistedCounter).mod).result
      = .ok { changes := 2, passes := 1 } := by decide +kernel
  have hfull : (full.run (first.run hoistedCounter).mod).result
      = .ok { changes := .ofNat (2 ^ 64 - 1), passes := 1 } := by decide +kernel
  have herror : (third.run (first.run hoistedCounter).mod).result
      = .error (.methodNotFound ⟨0x06000002⟩) := by decide +kernel
  have hstopped := (hfails _).mpr (Or.inr ⟨⟨_, hok⟩, herror⟩)
  have hfirst : report (first.run hoistedCounter) {} = .ok _ :=
    report_eq_ok_iff.mpr ⟨_, hok, rfl⟩
  have hsecond : report (second.run (first.run hoistedCounter).mod) {} = .ok _ :=
    report_eq_ok_iff.mpr ⟨_, hcounted, rfl⟩
  have hlast : report (full.run (first.run hoistedCounter).mod) {} = .ok _ :=
    report_eq_ok_iff.mpr ⟨_, hfull, rfl⟩
  refine ⟨⟨_, (hreport {} _).mpr ⟨_, _, hfirst, hsecond, rfl⟩, rfl, rfl⟩,
    ⟨_, (hwrapped {} _).mpr ⟨_, _, hfirst, hlast, rfl⟩, by decide, rfl⟩, ?_⟩
  exact ⟨hstopped, hstops _ hstopped⟩

end Engine

end LocalRecovery
