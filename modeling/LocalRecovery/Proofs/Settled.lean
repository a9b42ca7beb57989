import LocalRecovery.Proofs.Correspondence

set_option autoImplicit false

/-! # Code that needs no more work

Redirecting leaves some accesses to candidates behind: those through an object keep their form. They
are no work for later calls, since their candidate has its variable by then. Code is *settled* if
all its accesses to candidates are of this kind.

Redirecting in settled code succeeds and changes neither the code nor the variables nor the
bindings; only the counter goes on, by one for each access (`run_of_settled`). The same holds of
methods and of calls (`redirectMethods_of_settled`, `process_of_settled`). Conversely, code in which
redirecting has succeeded is settled (`settled_redirectMethods`).
-/

namespace LocalRecovery

/-- The instruction accesses no candidate, or it does so through an object and the candidate has its
variable. -/
def Instruction.Settled (candidates : List Candidate) (bindings : List Binding) (method : Token)
    (i : Instruction) : Prop :=
  ∀ c, i.candidate? candidates = some c →
    i.opcode.staticAccess? = none ∧ ∃ slot, Binding.find? bindings c.token method = some slot

def Code.Settled (candidates : List Candidate) (bindings : List Binding) (method : Token)
    (code : Code) : Prop :=
  ∀ i ∈ code, i.Settled candidates bindings method

def Method.Settled (candidates : List Candidate) (bindings : List Binding) (m : Method) : Prop :=
  ∀ b ∈ m.body, b.code.Settled candidates bindings m.token

def TypeDef.Settled (candidates : List Candidate) (bindings : List Binding) (t : TypeDef) : Prop :=
  ∀ m ∈ t.methods, m.Settled candidates bindings

/-- The number of accesses to candidates. -/
def Code.accessCount (candidates : List Candidate) (code : Code) : Nat :=
  code.countP fun i => (i.candidate? candidates).isSome

def Method.accessCount (candidates : List Candidate) (m : Method) : Nat :=
  (m.body.map fun b => b.code.accessCount candidates).getD 0

def TypeDef.accessCount (candidates : List Candidate) (t : TypeDef) : Nat :=
  (t.methods.map (Method.accessCount candidates)).sum

theorem Method.Settled.mono {candidates : List Candidate} {before after : List Binding}
    {m : Method} (h : m.Settled candidates before) (hext : Binding.Extends after before) :
    m.Settled candidates after := by
  intro b hb i hi c hc
  obtain ⟨hobject, slot, hslot⟩ := h b hb i hi c hc
  exact ⟨hobject, slot, hext _ _ _ hslot⟩

theorem TypeDef.Settled.mono {candidates : List Candidate} {before after : List Binding}
    {t : TypeDef} (h : t.Settled candidates before) (hext : Binding.Extends after before) :
    t.Settled candidates after :=
  fun m hm => (h m hm).mono hext

theorem TypeDef.accessCount_eq_zero {candidates : List Candidate} {t : TypeDef}
    (h : ∀ m ∈ t.methods, ∀ b ∈ m.body, ∀ i ∈ b.code, i.candidate? candidates = none) :
    t.accessCount candidates = 0 := by
  unfold TypeDef.accessCount
  rw [List.sum_eq_zero_iff]
  intro n hn
  obtain ⟨m, hm, rfl⟩ := List.mem_map.mp hn
  unfold Method.accessCount
  cases hb : m.body with
  | none => rfl
  | some b =>
      refine List.countP_eq_zero.mpr fun i hi => ?_
      rw [h m hm b hb i hi]
      exact Bool.false_ne_true

theorem Code.settled_of_none {candidates : List Candidate} {code : Code}
    (h : ∀ i ∈ code, i.candidate? candidates = none) (bindings : List Binding) (method : Token) :
    code.Settled candidates bindings method := by
  intro i hi c hc
  rw [h i hi] at hc
  cases hc

/-! ## Walks -/

namespace Walk

variable {candidates : List Candidate} {method : Token}

theorem step_of_settled (config : RecoveryConfig) (index : Nat) {i : Instruction} {w : Walk}
    (h : i.Settled candidates w.bindings method) :
    ∃ move, step config candidates method index i w = .ok move ∧ move.instruction = i ∧
      move.walk = { w with redirects := w.redirects + Code.accessCount candidates [i] } ∧
      move.journal.events = [] := by
  cases hc : i.candidate? candidates with
  | none => exact ⟨_, step_of_none hc, rfl, by simp [Code.accessCount, hc], rfl⟩
  | some c =>
      obtain ⟨hobject, slot, hslot⟩ := h c hc
      have hbound : slotFor method c w = .ok (slot, w, {}) := by
        unfold slotFor
        rw [hslot]
      refine ⟨{ instruction := i, walk := { w with redirects := w.redirects + 1 }
                journal := {} ++ { messages := [keptMessage method index c i.opcode] } },
        ?_, rfl, by simp [Code.accessCount, hc], rfl⟩
      unfold Instruction.candidate? at hc
      unfold step
      rw [hc]
      simp only [redirect, hbound, hobject]

/-- A walk through settled code counts and does nothing else. -/
theorem run_of_settled (config : RecoveryConfig) (code : Code) (index : Nat) (w : Walk)
    (h : code.Settled candidates w.bindings method) :
    (run config candidates method index code w).error = none ∧
      (run config candidates method index code w).code = code ∧
      (run config candidates method index code w).walk
        = { w with redirects := w.redirects + code.accessCount candidates } ∧
      (run config candidates method index code w).journal.events = [] := by
  induction code generalizing index w with
  | nil => exact ⟨rfl, rfl, rfl, rfl⟩
  | cons i rest ih =>
      obtain ⟨move, hs, hi, hwalk, hevents⟩ := step_of_settled config index (h i List.mem_cons_self)
      -- a step leaves the bindings as they are, so the rest is still settled
      obtain ⟨herror, hcode, hlast, hlater⟩ := ih (index + 1) move.walk fun j hj => by
        rw [hwalk]
        exact h j (List.mem_cons_of_mem i hj)
      have hcount : Code.accessCount candidates (i :: rest)
          = Code.accessCount candidates [i] + Code.accessCount candidates rest := by
        unfold Code.accessCount
        rw [← List.countP_append, List.singleton_append]
      unfold run
      rw [hs]
      refine ⟨herror, ?_, ?_, ?_⟩
      · simp only [hi, hcode]
      · rw [hcount, ← Nat.add_assoc]
        simp only [hlast]
        rw [hwalk]
      · simp only [Journal.events_append, hevents, hlater, List.append_nil]

/-- What an access is redirected to leaves nothing to do. -/
theorem Means.settled {bindings : List Binding} {i i' : Instruction}
    (h : Means candidates bindings method i i'.meaning) :
    i'.Settled candidates bindings method := by
  intro c hc
  obtain ⟨hfield, hfind⟩ := Instruction.find?_of_candidate? hc
  obtain ⟨storage, kind, rfl⟩ := Instruction.eq_of_fieldToken? hfield
  -- an access to a field has one spelling, so it is what the walk left
  obtain ⟨j, hj, hmeaning⟩ := h
  rw [Instruction.meaning_field] at hmeaning
  rw [Instruction.eq_of_meaning_itself hmeaning] at hj
  unfold Redirected at hj
  cases hi : i.candidate? candidates with
  | none =>
      rw [hi] at hj
      rw [hj, hi] at hc
      cases hc
  | some d =>
      rw [hi] at hj
      obtain ⟨slot, hslot, hredirected⟩ := hj
      unfold Instruction.redirectedTo at hredirected
      cases hkind : i.opcode.staticAccess? with
      | none =>
          simp only [hkind] at hredirected
          rw [hredirected] at hc ⊢
          obtain rfl : d = c := Option.some.inj (hi.symm.trans hc)
          exact ⟨hkind, slot, hslot⟩
      | some kind =>
          simp only [hkind] at hredirected
          cases hredirected

end Walk

/-! ## Methods and calls -/

namespace Recovery

theorem redirectBody_of_settled {p : Recovery} {method : Token} {b : Body}
    (h : b.code.Settled (p.candidates.getD []) p.bindings method) :
    (p.redirectBody method b).result = .ok false ∧ (p.redirectBody method b).part = b ∧
      (p.redirectBody method b).pass
        = { p with redirects := p.redirects + b.code.accessCount (p.candidates.getD []) } ∧
      (p.redirectBody method b).journal.events = [] := by
  obtain ⟨herror, hcode, hwalk, hevents⟩ := Walk.run_of_settled p.config b.code 0
    { bindings := p.bindings, locals := b.locals, redirects := p.redirects } h
  unfold redirectBody
  simp only [herror, hcode, hwalk, hevents, Bool.false_and, Bool.false_eq_true, if_false, and_self]

theorem redirectMethod_of_settled {p : Recovery} {m : Method}
    (h : m.Settled (p.candidates.getD []) p.bindings) :
    (p.redirectMethod m).result = .ok false ∧ (p.redirectMethod m).part = m ∧
      (p.redirectMethod m).pass
        = { p with redirects := p.redirects + m.accessCount (p.candidates.getD []) } ∧
      (p.redirectMethod m).journal.events = [] := by
  rcases m with ⟨token, name, _ | b⟩
  · exact ⟨rfl, rfl, rfl, rfl⟩
  · obtain ⟨hresult, hpart, hpass, hevents⟩ := redirectBody_of_settled (h b rfl)
    unfold redirectMethod
    simp only [hresult, hpart, hpass, hevents]
    exact ⟨trivial, trivial, rfl, trivial⟩

theorem redirectMethods_of_settled {p : Recovery} {methods : List Method}
    (h : ∀ m ∈ methods, m.Settled (p.candidates.getD []) p.bindings) :
    (p.redirectMethods methods).result = .ok false ∧ (p.redirectMethods methods).part = methods ∧
      (p.redirectMethods methods).pass
        = { p with
            redirects := p.redirects
              + (methods.map (Method.accessCount (p.candidates.getD []))).sum } ∧
      (p.redirectMethods methods).journal.events = [] := by
  induction methods generalizing p with
  | nil => exact ⟨rfl, rfl, rfl, rfl⟩
  | cons m rest ih =>
      obtain ⟨hresult, hpart, hpass, hevents⟩ :=
        redirectMethod_of_settled (h m List.mem_cons_self)
      obtain ⟨hresults, hparts, hlast, hlater⟩ := ih (p := (p.redirectMethod m).pass) fun n hn => by
        rw [hpass]
        exact h n (List.mem_cons_of_mem m hn)
      unfold redirectMethods
      simp only [hresult, hresults, hpart, hparts, hlast, Journal.events_append, hevents, hlater,
        List.append_nil, List.map_cons, List.sum_cons]
      refine ⟨rfl, trivial, ?_, trivial⟩
      simp only [hpass, Nat.add_assoc]

/-- Code in which redirecting has succeeded is settled. -/
theorem settled_redirectMethods {p : Recovery} {methods : List Method} {changed : Bool}
    (h : (p.redirectMethods methods).result = .ok changed) :
    ∀ m ∈ (p.redirectMethods methods).part,
      m.Settled (p.candidates.getD []) (p.redirectMethods methods).pass.bindings := by
  intro m' hm' b' hb' i' hi'
  obtain ⟨m, _, htoken, hbody⟩ := exists_of_forall₂_right (recovered_redirectMethods h) hm'
  obtain ⟨b, _, hcode⟩ := exists_of_rel_right hbody hb'
  rw [List.forall₂_map_right_iff] at hcode
  obtain ⟨i, _, hmeans⟩ := exists_of_forall₂_right hcode hi'
  rw [htoken]
  exact hmeans.settled

theorem locate_again (p : Recovery) (mod mod' : Module) :
    (p.locate mod).1.locate mod' = ((p.locate mod).1, {}) := by
  rw [locate_pass]
  rfl

/-- A call on a settled type finds the candidates, counts, and does nothing else. -/
theorem process_of_settled {p : Recovery} {mod : Module} {front back : List TypeDef} {t : TypeDef}
    (hmod : mod.types = front ++ t :: back) (hfront : ∀ u ∈ front, u.token ≠ t.token)
    (h : t.Settled (p.candidatesIn mod) p.bindings) :
    (p.process mod t.token).result = .ok false ∧ (p.process mod t.token).mod = mod ∧
      (p.process mod t.token).pass
        = { p with
            candidates := some (p.candidatesIn mod)
            redirects := p.redirects + t.accessCount (p.candidatesIn mod) } ∧
      (p.process mod t.token).journal.events = (p.locate mod).2.events := by
  obtain ⟨hresult, hpass, hafter⟩ := process_at (p := p) hmod hfront
  have hjournal := process_journal_at (p := p) hmod hfront
  rw [hresult, hpass, hafter, hjournal]
  have hsettled : ∀ m ∈ t.methods,
      m.Settled ((p.locate mod).1.candidates.getD []) (p.locate mod).1.bindings := by
    rw [locate_pass]
    exact h
  obtain ⟨hok, hpart, hlast, hevents⟩ := redirectMethods_of_settled hsettled
  refine ⟨hok, ?_, ?_, ?_⟩
  · rw [hpart, ← hmod]
  · rw [hlast, locate_pass]
    rfl
  · rw [Journal.events_append, hevents, List.append_nil]

end Recovery

end LocalRecovery
