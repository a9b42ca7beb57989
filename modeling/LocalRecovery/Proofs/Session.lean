import LocalRecovery.Proofs.Redirection

set_option autoImplicit false

/-! # Sessions

A session is a sequence of calls of one recovery on one module, in any order and whatever they
return: `locate`, `process` with any token, `finalize`. What every call keeps holds at the end of
every session (`session_preserves`).

A full run is the session that processes each type once, in order, and then finalizes.
-/

namespace LocalRecovery

/-- A call of the recovery. -/
inductive Call where
  | locate
  | process (type : Token)
  | finalize
  deriving DecidableEq

/-- What is left after a session: the results of the calls, the recovery, the module and the
journal. -/
structure Session where
  results : List (Except Error Bool) := []
  pass : Recovery
  mod : Module
  journal : Journal := {}

/-- Every call succeeded. -/
def Session.Succeeds (s : Session) : Prop :=
  ∀ r ∈ s.results, ∃ changed, r = .ok changed

instance (s : Session) : Decidable s.Succeeds :=
  decidable_of_iff (s.results.all Except.isOk = true) <| by
    unfold Session.Succeeds
    rw [List.all_eq_true]
    refine forall₂_congr fun r _ => ?_
    cases r <;> simp [Except.isOk, Except.toBool]

namespace Recovery

/-- Makes a call. Only `process` reports a change. -/
def call (p : Recovery) (mod : Module) : Call → Step Recovery Bool
  | .locate => { result := .ok false, pass := (p.locate mod).1, mod, journal := (p.locate mod).2 }
  | .process type => p.process mod type
  | .finalize =>
      { result := (p.finalize mod).result.map fun _ => false
        pass := (p.finalize mod).pass
        mod := (p.finalize mod).mod
        journal := (p.finalize mod).journal }

/-- Makes calls, one after the other. A call that fails does not end the session. -/
def session (p : Recovery) (mod : Module) : List Call → Session
  | [] => { pass := p, mod }
  | c :: rest =>
      let first := p.call mod c
      let later := first.pass.session first.mod rest
      { later with
        results := first.result :: later.results
        journal := first.journal ++ later.journal }

/-- The calls of a full run. -/
def fullRun (mod : Module) : List Call :=
  mod.typeTokens.map Call.process ++ [.finalize]

/-- What every call keeps, a session keeps. -/
theorem session_preserves {P : Recovery → Module → Prop}
    (hcall : ∀ p mod c, P p mod → P (p.call mod c).pass (p.call mod c).mod) (calls : List Call)
    {p : Recovery} {mod : Module} (h : P p mod) :
    P (p.session mod calls).pass (p.session mod calls).mod := by
  induction calls generalizing p mod with
  | nil => exact h
  | cons c rest ih => exact ih (hcall p mod c h)

/-- A session in two parts. -/
theorem session_append (p : Recovery) (mod : Module) (first second : List Call) :
    (p.session mod (first ++ second)).pass
        = ((p.session mod first).pass.session (p.session mod first).mod second).pass ∧
      (p.session mod (first ++ second)).mod
        = ((p.session mod first).pass.session (p.session mod first).mod second).mod ∧
      (p.session mod (first ++ second)).results
        = (p.session mod first).results
          ++ ((p.session mod first).pass.session (p.session mod first).mod second).results := by
  induction first generalizing p mod with
  | nil => exact ⟨rfl, rfl, rfl⟩
  | cons c rest ih =>
      obtain ⟨hpass, hmod, hresults⟩ := ih (p.call mod c).pass (p.call mod c).mod
      exact ⟨hpass, hmod, congrArg (List.cons (p.call mod c).result) hresults⟩

/-- A session with `finalize` at its end. -/
theorem session_finalize (p : Recovery) (mod : Module) (calls : List Call) :
    let s := p.session mod calls
    let ended := p.session mod (calls ++ [.finalize])
    ended.results = s.results ++ [.ok false] ∧ ended.pass = s.pass ∧
      ended.mod = (s.pass.finalize s.mod).mod ∧
      ended.journal.events = s.journal.events ++ (s.pass.finalize s.mod).journal.events := by
  induction calls generalizing p mod with
  | nil =>
      obtain ⟨hpass, hresult, _⟩ := p.finalize_cases mod
      refine ⟨?_, hpass, rfl, List.append_nil _⟩
      show [(p.finalize mod).result.map fun _ => false] = [.ok false]
      rw [hresult]
      rfl
  | cons c rest ih =>
      obtain ⟨hresults, hpass, hmod, hevents⟩ := ih (p.call mod c).pass (p.call mod c).mod
      refine ⟨congrArg (List.cons (p.call mod c).result) hresults, hpass, hmod, ?_⟩
      simp only [List.cons_append, session, Journal.events_append, List.append_assoc]
      rw [hevents]

/-- No call changes the configuration. -/
theorem call_config (p : Recovery) (mod : Module) (c : Call) :
    (p.call mod c).pass.config = p.config := by
  cases c with
  | locate =>
      unfold call
      rw [locate_pass]
  | process type => exact p.process_config mod type
  | finalize =>
      unfold call
      rw [(p.finalize_cases mod).1]

theorem session_config (p : Recovery) (mod : Module) (calls : List Call) :
    (p.session mod calls).pass.config = p.config := by
  refine session_preserves (P := fun q _ => q.config = p.config) ?_ calls rfl
  intro q current c hq
  exact (q.call_config current c).trans hq

theorem extends_session (p : Recovery) (mod : Module) (calls : List Call) :
    Binding.Extends (p.session mod calls).pass.bindings p.bindings := by
  refine session_preserves (P := fun q _ => Binding.Extends q.bindings p.bindings) ?_ calls
    (Binding.Extends.refl p.bindings)
  intro q current c hq
  cases c with
  | locate =>
      show Binding.Extends (q.locate current).1.bindings p.bindings
      rw [locate_pass]
      exact hq
  | process type => exact (q.extends_process current type).trans hq
  | finalize =>
      show Binding.Extends (q.finalize current).pass.bindings p.bindings
      rw [(q.finalize_cases current).1]
      exact hq

end Recovery

/-- A global field that a method stores into and loads from, through an object as well, next to a
variable of its own. -/
def hoistedCounter : Module :=
  { name := "counter"
    types :=
      [ { token := ⟨0x02000001⟩, space := "", name := TypeDef.globalName
          fields :=
            [ { token := ⟨0x04000001⟩, name := "count", flags := ⟨0x16⟩
                signature := .primitive .int32 } ] },
        { token := ⟨0x02000002⟩, space := "", name := "Program"
          methods :=
            [ { token := ⟨0x06000001⟩, name := "Main"
                body := some
                  { locals := [{ signature := .primitive .int32 }]
                    code :=
                      [ ⟨.constant .long, .immediate (.int32 5)⟩,
                        ⟨.field .static .write, .token ⟨0x04000001⟩⟩,
                        ⟨.field .object .read, .token ⟨0x04000001⟩⟩,
                        ⟨.branch .always .long, .target 0⟩ ] } } ] } ] }

/-- Two types whose methods share two global fields. The type of one field is not known, and an
access to it goes through an object. -/
def hoistedPair : Module :=
  { name := "pair"
    types :=
      [ { token := ⟨0x02000001⟩, space := "", name := TypeDef.globalName
          fields :=
            [ { token := ⟨0x04000001⟩, name := "count", flags := ⟨0x16⟩
                signature := .primitive .int32 },
              { token := ⟨0x04000002⟩, name := "state", flags := ⟨0x16⟩, signature := .unknown } ]
          methods :=
            [ { token := ⟨0x06000001⟩, name := "Reset"
                body := some
                  { code :=
                      [ ⟨.field .static .write, .token ⟨0x04000002⟩⟩,
                        ⟨.field .static .write, .token ⟨0x04000001⟩⟩ ] } } ] },
        { token := ⟨0x02000002⟩, space := "", name := "Program"
          methods :=
            [ { token := ⟨0x06000002⟩, name := "Main"
                body := some
                  { code :=
                      [ ⟨.field .static .read, .token ⟨0x04000001⟩⟩,
                        ⟨.field .object .read, .token ⟨0x04000002⟩⟩,
                        ⟨.field .static .write, .token ⟨0x04000001⟩⟩ ] } } ] } ] }

end LocalRecovery
