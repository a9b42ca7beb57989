import LocalRecovery.Proofs.Dangling
import LocalRecovery.Proofs.EngineRun
import LocalRecovery.Proofs.Independence
import LocalRecovery.Proofs.SecondRun

set_option autoImplicit false

/-! # Accounting

Every number in the report of a run can be read off the module before and after it. The recovery
keeps its numbers at different places: the count of accesses at each access, the bindings and the
variables at the first access of a method to a candidate, the events beside both.

A ledger (`Ledger`) says how they move together while a list of accesses is dealt with. Ledgers of
consecutive parts add up (`Ledger.trans`), from the steps of a walk to the types of a module.
-/

namespace LocalRecovery

/-! ## Accesses to candidates -/

namespace Candidate

/-- The type of a candidate could not be resolved. -/
def isUnknown (candidates : List Candidate) (field : Token) : Bool :=
  (find? candidates field).any fun c => c.signature.isUnknown

end Candidate

namespace FieldReference

/-- What is bound at the access: the field, for the method. -/
def key (r : FieldReference) : Token × Token :=
  (r.field, r.method)

/-- The access goes to a static field, not through an object. -/
def isStatic (r : FieldReference) : Bool :=
  r.opcode.staticAccess?.isSome

/-- Where the access is. -/
def place (r : FieldReference) : Option Token × Option Nat :=
  (some r.method, some r.index)

end FieldReference

/-- Where the event is. -/
def Event.place (e : Event) : Option Token × Option Nat :=
  (e.method, e.location)

/-- Events that are all of one kind. -/
theorem Event.filter_kind {events : List Event} {kind : EventKind}
    (h : ∀ e ∈ events, e.kind = kind) (other : EventKind) :
    (events.filter fun e => e.kind == other) = if kind = other then events else [] := by
  split_ifs with heq
  · exact List.filter_eq_self.mpr fun e he => beq_iff_eq.mpr ((h e he).trans heq)
  · refine List.filter_eq_nil_iff.mpr fun e he hkind => heq ?_
    exact (h e he).symm.trans (beq_iff_eq.mp hkind)

theorem Event.countP_kind {events : List Event} {kind : EventKind}
    (h : ∀ e ∈ events, e.kind = kind) (other : EventKind) :
    events.countP (fun e => e.kind == other) = if kind = other then events.length else 0 := by
  rw [List.countP_eq_length_filter, filter_kind h other]
  split_ifs <;> rfl

/-- The accesses to candidates in code whose first instruction has the number `index`. -/
def Code.accesses (candidates : List Candidate) (method : Token) (index : Nat) (code : Code) :
    List FieldReference :=
  (code.zipIdx index).filterMap fun (i, k) =>
    (i.candidate? candidates).map fun c => ⟨method, k, i.opcode, c.token⟩

/-- The accesses to candidates in a module, in order. -/
def Module.accesses (mod : Module) : List FieldReference :=
  mod.fieldReferences.filter fun r => decide (mod.IsCandidate r.field)

/-- The accesses to candidates in a method. -/
def Method.accesses (candidates : List Candidate) (m : Method) : List FieldReference :=
  m.fieldReferences.filter fun r => (Candidate.find? candidates r.field).isSome

/-- The number of local variables of a method. -/
def Method.localCount (m : Method) : Nat :=
  (m.body.map fun b => b.locals.length).getD 0

/-- The number of local variables of all methods. -/
def Module.localCount (mod : Module) : Nat :=
  (mod.methods.map Method.localCount).sum

theorem Module.accesses_eq (mod : Module) :
    mod.accesses = mod.types.flatMap fun t =>
      t.methods.flatMap (Method.accesses (Candidate.collect mod.globalFields)) := by
  have hcandidate : ∀ field, decide (mod.IsCandidate field)
      = (Candidate.find? (Candidate.collect mod.globalFields) field).isSome := fun field =>
    Bool.eq_iff_iff.mpr <| decide_eq_true_iff.trans
      (Candidate.isSome_find?_collect_iff mod.globalFields field).symm
  unfold Module.accesses Module.fieldReferences Method.accesses
  simp only [hcandidate, List.filter_flatMap]

theorem Code.accesses_cons (candidates : List Candidate) (method : Token) (index : Nat)
    (i : Instruction) (rest : Code) :
    Code.accesses candidates method index (i :: rest)
      = Code.accesses candidates method index [i]
        ++ Code.accesses candidates method (index + 1) rest := by
  unfold Code.accesses
  rw [← List.filterMap_append]
  rfl

/-- The accesses of a method are those of its code. -/
theorem Code.accesses_eq (candidates : List Candidate) (method : Token) (code : Code) :
    code.accesses candidates method 0
      = (code.fieldReferences method).filter fun r =>
          (Candidate.find? candidates r.field).isSome := by
  unfold Code.accesses Code.fieldReferences
  rw [List.filter_filterMap]
  refine List.filterMap_congr ?_
  rintro ⟨i, k⟩ _
  show (i.candidate? candidates).map _ = (i.fieldToken?.map _).filter _
  unfold Instruction.candidate?
  cases i.fieldToken? with
  | none => rfl
  | some field =>
      rw [Option.bind_some, Option.map_some, Option.filter_some]
      cases hc : Candidate.find? candidates field with
      | none => rfl
      | some c =>
          rw [Option.map_some, Candidate.token_of_find? hc]
          rfl

theorem Code.length_accesses (candidates : List Candidate) (method : Token) (index : Nat)
    (code : Code) :
    (code.accesses candidates method index).length = code.accessCount candidates := by
  unfold Code.accesses Code.accessCount
  rw [List.length_filterMap_eq_countP]
  conv_rhs => rw [← List.zipIdx_map_fst index code, List.countP_map]
  refine List.countP_congr fun entry _ => ?_
  simp

theorem Method.length_accesses (candidates : List Candidate) (m : Method) :
    (m.accesses candidates).length = m.accessCount candidates := by
  rcases m with ⟨token, name, _ | b⟩
  · rfl
  · show ((b.code.fieldReferences token).filter _).length = b.code.accessCount candidates
    rw [← Code.accesses_eq, Code.length_accesses]

/-! ## Ledgers -/

/-- The numbers that the recovery keeps. -/
structure Books where
  bindings : List Binding
  redirects : Nat

def Walk.books (w : Walk) : Books :=
  ⟨w.bindings, w.redirects⟩

def Recovery.books (p : Recovery) : Books :=
  ⟨p.bindings, p.redirects⟩

/-- How the books and the events move together while some accesses are dealt with. -/
structure Ledger (config : RecoveryConfig) (candidates : List Candidate)
    (accesses : List FieldReference) (before after : Books) (events : List Event) : Prop where
  /-- Every access counts. -/
  counted : after.redirects = before.redirects + accesses.length
  /-- Whatever is accessed in a method is bound there. -/
  bound : ∀ key, key ∈ after.bindings.map Binding.key ↔
    key ∈ before.bindings.map Binding.key ∨ key ∈ accesses.map FieldReference.key
  /-- For every new binding there is an event. -/
  created : events.countP (fun e => e.kind == .localCreated) + before.bindings.length
    = after.bindings.length
  /-- For every new binding of a candidate of unknown type there is a warning. -/
  warned : events.countP (fun e => e.kind == .warning)
      + before.bindings.countP (fun b => Candidate.isUnknown candidates b.field)
    = after.bindings.countP fun b => Candidate.isUnknown candidates b.field
  /-- For every static access there is an event at its place, if that is wanted. -/
  redirected : (events.filter fun e => e.kind == .accessRedirected).map Event.place
    = if config.recordAccesses then
        (accesses.filter FieldReference.isStatic).map FieldReference.place
      else []
  /-- Nothing is removed. -/
  kept : events.countP (fun e => e.kind == .artifactRemoved) = 0

namespace Ledger

variable {config : RecoveryConfig} {candidates : List Candidate}

/-- Events of other kinds do not enter. -/
theorem idle (books : Books) {events : List Event}
    (h : ∀ e ∈ events, e.kind = .candidateIdentified) :
    Ledger config candidates [] books books events where
  counted := rfl
  bound key := by simp
  created := by
    rw [Event.countP_kind h, if_neg (by decide), Nat.zero_add]
  warned := by
    rw [Event.countP_kind h, if_neg (by decide), Nat.zero_add]
  redirected := by
    rw [Event.filter_kind h, if_neg (by decide)]
    split_ifs <;> rfl
  kept := by
    rw [Event.countP_kind h, if_neg (by decide)]

theorem refl (books : Books) : Ledger config candidates [] books books [] :=
  idle books fun _ he => absurd he List.not_mem_nil

/-- Ledgers of consecutive parts add up. -/
theorem trans {first second : List FieldReference} {before between after : Books}
    {events later : List Event} (h₁ : Ledger config candidates first before between events)
    (h₂ : Ledger config candidates second between after later) :
    Ledger config candidates (first ++ second) before after (events ++ later) where
  counted := by
    rw [h₂.counted, h₁.counted, List.length_append, Nat.add_assoc]
  bound key := by
    rw [h₂.bound, h₁.bound, List.map_append, List.mem_append, or_assoc]
  created := by
    have hfirst := h₁.created
    have hsecond := h₂.created
    rw [List.countP_append]
    omega
  warned := by
    have hfirst := h₁.warned
    have hsecond := h₂.warned
    rw [List.countP_append]
    omega
  redirected := by
    rw [List.filter_append, List.map_append, h₁.redirected, h₂.redirected]
    split_ifs
    · rw [List.filter_append, List.map_append]
    · rfl
  kept := by
    rw [List.countP_append, h₁.kept, h₂.kept]

end Ledger

namespace Walk

variable {config : RecoveryConfig} {candidates : List Candidate} {method : Token}

theorem accessEvents_kind (config : RecoveryConfig) (method : Token) (index : Nat) (i : Instruction)
    (c : Candidate) (slot : UInt16) :
    ∀ e ∈ accessEvents config method index i c slot, e.kind = .accessRedirected := by
  unfold accessEvents
  cases i.opcode.staticAccess? <;> cases config.recordAccesses <;> simp [redirectEvent]

/-- What is recorded about an access is recorded at its place. -/
theorem accessEvents_place (config : RecoveryConfig) (method : Token) (index : Nat)
    (i : Instruction) (c : Candidate) (slot : UInt16) (field : Token) :
    (accessEvents config method index i c slot).map Event.place
      = if config.recordAccesses then
          ([⟨method, index, i.opcode, field⟩].filter FieldReference.isStatic).map
            FieldReference.place
        else [] := by
  rw [List.filter_singleton]
  unfold accessEvents FieldReference.isStatic
  cases i.opcode.staticAccess? <;> cases config.recordAccesses <;> rfl

/-- The books when a candidate gets its variable. -/
theorem slotFor_books {c : Candidate} {w w' : Walk} {slot : UInt16} {created : Journal}
    (h : slotFor method c w = .ok (slot, w', created))
    (hc : Candidate.find? candidates c.token = some c) :
    w'.redirects = w.redirects ∧
      (∀ key, key ∈ w'.bindings.map Binding.key ↔
        key ∈ w.bindings.map Binding.key ∨ key = (c.token, method)) ∧
      created.events.countP (fun e => e.kind == .localCreated) + w.bindings.length
        = w'.bindings.length ∧
      created.events.countP (fun e => e.kind == .warning)
          + w.bindings.countP (fun b => Candidate.isUnknown candidates b.field)
        = w'.bindings.countP (fun b => Candidate.isUnknown candidates b.field) ∧
      (created.events.filter fun e => e.kind == .accessRedirected) = [] ∧
      created.events.countP (fun e => e.kind == .artifactRemoved) = 0 := by
  rcases slotFor_ok_inv h with ⟨hf, rfl, rfl⟩ | ⟨hf, _, _, rfl, rfl⟩
  · -- bound already: the key is there, and nothing is recorded
    have hkey := (Binding.mem_keys_iff w'.bindings c.token method).mpr (by rw [hf]; rfl)
    refine ⟨rfl, fun key => ⟨Or.inl, ?_⟩, Nat.zero_add _, Nat.zero_add _, rfl, rfl⟩
    rintro (hold | rfl)
    · exact hold
    · exact hkey
  · -- one more binding, with its event and perhaps a warning
    have hunknown : Candidate.isUnknown candidates c.token = c.signature.isUnknown := by
      unfold Candidate.isUnknown
      rw [hc]
      rfl
    refine ⟨rfl, fun key => ?_, ?_⟩
    · unfold declare Binding.key
      rw [List.map_cons, List.mem_cons, or_comm]
    · unfold declare localJournal
      simp only [List.length_cons, List.countP_cons, hunknown]
      split_ifs
      · exact ⟨Nat.add_comm _ _, Nat.add_comm _ _, rfl, rfl⟩
      · exact ⟨Nat.add_comm _ _, Nat.zero_add _, rfl, rfl⟩

/-- The ledger of one step. -/
theorem ledger_step {index : Nat} {i : Instruction} {w : Walk} {move : Move}
    (h : step config candidates method index i w = .ok move) :
    Ledger config candidates (Code.accesses candidates method index [i]) w.books move.walk.books
      move.journal.events := by
  cases hc : i.candidate? candidates with
  | none =>
      have hnone : Code.accesses candidates method index [i] = [] := by
        simp [Code.accesses, hc]
      rw [step_of_none hc] at h
      cases h
      rw [hnone]
      exact Ledger.refl w.books
  | some c =>
      have hone : Code.accesses candidates method index [i]
          = [⟨method, index, i.opcode, c.token⟩] := by
        simp [Code.accesses, hc]
      -- first the candidate gets its variable, then the access is counted and recorded
      obtain ⟨slot, w', created, hs, _, hwalk, hevents⟩ := step_ok_inv hc h
      obtain ⟨hcount, hkeys, hlocals, hwarnings, hredirected, hremoved⟩ :=
        slotFor_books hs (Instruction.find?_of_candidate? hc).2
      have hkind := accessEvents_kind config method index i c slot
      rw [hone, hwalk, hevents]
      constructor
      · exact congrArg (· + 1) hcount
      · intro key
        rw [List.map_singleton, List.mem_singleton]
        exact hkeys key
      · rw [List.countP_append, Event.countP_kind hkind, if_neg (by decide)]
        exact hlocals
      · rw [List.countP_append, Event.countP_kind hkind, if_neg (by decide)]
        exact hwarnings
      · rw [List.filter_append, hredirected, List.nil_append, Event.filter_kind hkind, if_pos rfl]
        exact accessEvents_place config method index i c slot c.token
      · rw [List.countP_append, hremoved, Event.countP_kind hkind, if_neg (by decide)]

/-- The ledger of a walk that gets to the end of the code. -/
theorem ledger_run (code : Code) (index : Nat) (w : Walk)
    (h : (run config candidates method index code w).error = none) :
    Ledger config candidates (code.accesses candidates method index) w.books
      (run config candidates method index code w).walk.books
      (run config candidates method index code w).journal.events := by
  induction code generalizing index w with
  | nil => exact Ledger.refl w.books
  | cons i rest ih =>
      unfold run at h ⊢
      cases hs : step config candidates method index i w with
      | error e =>
          rw [hs] at h
          cases h
      | ok move =>
          rw [hs] at h
          rw [Code.accesses_cons]
          exact (ledger_step hs).trans (ih (index + 1) move.walk h)

end Walk

namespace Recovery

/-- The ledger of a method. -/
theorem ledger_redirectMethod {p : Recovery} {m : Method} {changed : Bool}
    (h : (p.redirectMethod m).result = .ok changed) :
    Ledger p.config (p.candidates.getD []) (m.accesses (p.candidates.getD [])) p.books
      (p.redirectMethod m).pass.books (p.redirectMethod m).journal.events := by
  rcases m with ⟨token, name, _ | b⟩
  · exact Ledger.refl p.books
  · have hwalk := (redirectBody_ok_inv (p := p) (b := b) h).1
    have hledger := Walk.ledger_run b.code 0 _ hwalk
    show Ledger _ _ _ _ (p.redirectBody token b).pass.books (p.redirectBody token b).journal.events
    rw [redirectBody_journal, redirectBody_pass]
    rw [Code.accesses_eq] at hledger
    exact hledger

/-- The ledger of several methods. -/
theorem ledger_redirectMethods {methods : List Method} {p : Recovery} {changed : Bool}
    (h : (p.redirectMethods methods).result = .ok changed) :
    Ledger p.config (p.candidates.getD [])
      (methods.flatMap (Method.accesses (p.candidates.getD []))) p.books
      (p.redirectMethods methods).pass.books (p.redirectMethods methods).journal.events := by
  induction methods generalizing p changed with
  | nil => exact Ledger.refl p.books
  | cons m rest ih =>
      obtain ⟨⟨_, hfirst⟩, ⟨_, hrest⟩, hpass, _, hjournal⟩ := redirectMethods_ok_inv h
      have hlater := ih hrest
      rw [(p.redirectMethod_pass m).1, (p.redirectMethod_pass m).2] at hlater
      rw [hpass, hjournal]
      exact (ledger_redirectMethod hfirst).trans hlater

/-- The ledger of the types from some place on, each processed once. -/
theorem ledger_session {candidates : List Candidate} (types front : List TypeDef) (p : Recovery)
    (mod : Module) (hcandidates : p.candidates = some candidates)
    (hmod : mod.types = front ++ types) (hnodup : mod.typeTokens.Nodup)
    (hok : (p.session mod ((types.map TypeDef.token).map .process)).Succeeds) :
    let s := p.session mod ((types.map TypeDef.token).map .process)
    Ledger p.config candidates
      (types.flatMap fun t => t.methods.flatMap (Method.accesses candidates)) p.books s.pass.books
      s.journal.events := by
  induction types generalizing p mod front with
  | nil => exact Ledger.refl p.books
  | cons t rest ih =>
      have hlocated : p.locate mod = (p, {}) := by
        unfold locate
        rw [hcandidates]
      obtain ⟨hresult, hpass, hjournal, htypes₁, hnodup₁⟩ := process_next (p := p) hmod hnodup
      rw [hlocated] at hresult hpass hjournal htypes₁
      -- the first call, on `t`
      obtain ⟨changed, hchanged⟩ := hok _ List.mem_cons_self
      have hfirst : Ledger p.config candidates (t.methods.flatMap (Method.accesses candidates))
          p.books (p.process mod t.token).pass.books (p.process mod t.token).journal.events := by
        have hledger := ledger_redirectMethods (hresult.symm.trans hchanged)
        rw [hcandidates, Option.getD_some] at hledger
        rw [hpass, hjournal]
        exact hledger
      -- the others, on the module that it leaves
      have hcandidates₁ : (p.process mod t.token).pass.candidates = some candidates := by
        rw [hpass, (p.redirectMethods_pass t.methods).2, hcandidates]
      have hlater := ih _ _ _ hcandidates₁ htypes₁ hnodup₁ fun r hr =>
        hok r (List.mem_cons_of_mem _ hr)
      rw [p.process_config] at hlater
      exact hfirst.trans hlater

/-- The ledger of all types, for a new recovery. -/
theorem ledger_start (config : RecoveryConfig) {mod : Module} (hnodup : mod.typeTokens.Nodup)
    (hok : (session { config } mod (mod.typeTokens.map .process)).Succeeds) :
    let s := session { config } mod (mod.typeTokens.map .process)
    Ledger config (Candidate.collect mod.globalFields) mod.accesses ⟨[], 0⟩ s.pass.books
      s.journal.events := by
  intro s
  rw [Module.accesses_eq]
  rcases eq_or_ne mod.typeTokens [] with hnil | hne
  · -- without types there is no call, and not even the candidates are collected
    have htypes : mod.types = [] := List.map_eq_nil_iff.mp hnil
    have hs : s = { pass := { config }, mod } := by
      simp only [s, hnil, List.map_nil, session]
    rw [htypes, hs]
    exact Ledger.refl _
  · obtain ⟨hresults, hpass, _, hevents⟩ := session_locate hne { config } mod
    have hlater := ledger_session mod.types [] (locate { config } mod).1 mod rfl rfl hnodup
      fun r hr => hok r (hresults ▸ hr)
    have hfirst : Ledger config (Candidate.collect mod.globalFields) [] ⟨[], 0⟩ ⟨[], 0⟩
        (locate { config } mod).2.events := Ledger.idle _ (locate_events _ mod)
    rw [show s.pass = _ from hpass, show s.journal.events = _ from hevents]
    exact hfirst.trans hlater

/-! ## Local variables -/

/-- For every new binding there is a new variable. -/
theorem localCount_redirectMethod (p : Recovery) (m : Method) :
    (p.redirectMethod m).part.localCount + p.bindings.length
      = m.localCount + (p.redirectMethod m).pass.bindings.length := by
  rcases m with ⟨token, name, _ | b⟩
  · rfl
  · show (p.redirectBody token b).part.locals.length + p.bindings.length
      = b.locals.length + (p.redirectBody token b).pass.bindings.length
    rw [redirectBody_locals, redirectBody_pass]
    refine Walk.run_preserves (P := fun w => w.locals.length + p.bindings.length
      = b.locals.length + w.bindings.length) b.code ?_ 0 rfl
    intro _ i _ w move hs hw
    rcases Walk.step_cases hs with ⟨hb, hl⟩ | ⟨c, _, _, _, hb, hl⟩
    · rw [hb, hl]
      exact hw
    · rw [hb, hl]
      unfold Walk.declare
      rw [List.length_append, List.length_singleton, List.length_cons]
      omega

theorem localCount_redirectMethods (p : Recovery) (methods : List Method) :
    ((p.redirectMethods methods).part.map Method.localCount).sum + p.bindings.length
      = (methods.map Method.localCount).sum
        + (p.redirectMethods methods).pass.bindings.length := by
  induction methods generalizing p with
  | nil => rfl
  | cons m rest ih =>
      have hfirst := p.localCount_redirectMethod m
      have hlater := ih (p.redirectMethod m).pass
      unfold redirectMethods
      simp only
      split
      · -- an error: the methods behind it keep their variables
        simp only [List.map_cons, List.sum_cons]
        omega
      · simp only [List.map_cons, List.sum_cons]
        omega

/-- The variables of a module and the bindings of the recovery grow together, whatever the calls
return. -/
theorem localCount_session (p : Recovery) (mod : Module) (calls : List Call) :
    (p.session mod calls).mod.localCount + p.bindings.length
      = mod.localCount + (p.session mod calls).pass.bindings.length := by
  refine session_preserves (P := fun q current => current.localCount + p.bindings.length
    = mod.localCount + q.bindings.length) ?_ calls rfl
  intro q current c hq
  cases c with
  | locate =>
      show current.localCount + _ = mod.localCount + (q.locate current).1.bindings.length
      rw [locate_pass]
      exact hq
  | process type =>
      show (q.process current type).mod.localCount + _
        = mod.localCount + (q.process current type).pass.bindings.length
      rcases q.process_cases current type with ⟨hpass, hmod⟩ | ⟨front, t, back, htypes, hpass, hmod⟩
      · rw [hpass, hmod, locate_pass]
        exact hq
      · have hmethods := (q.locate current).1.localCount_redirectMethods t.methods
        have hlocated : (q.locate current).1.bindings = q.bindings := by
          rw [locate_pass]
        rw [hlocated] at hmethods
        rw [hpass, hmod]
        unfold Module.localCount Module.methods at hq ⊢
        rw [htypes] at hq
        simp only [List.flatMap_append, List.flatMap_cons, List.map_append, List.sum_append] at hq ⊢
        omega
  | finalize =>
      show (q.finalize current).mod.localCount + _ = _ + (q.finalize current).pass.bindings.length
      unfold Module.localCount
      rw [finalize_methods, (q.finalize_cases current).1]
      exact hq

/-! ## The end -/

/-- What `finalize` records: the fields that it removes, and warnings for what still names them. -/
theorem finalize_counts (p : Recovery) (mod : Module) :
    let after := (p.finalize mod).mod
    let events := (p.finalize mod).journal.events
    events.countP (fun e => e.kind == .artifactRemoved) = (mod.removedFields after).length ∧
      after.globalFields.length + (mod.removedFields after).length = mod.globalFields.length ∧
      events.countP (fun e => e.kind == .warning)
        = after.fieldReferences.countP (fun r => decide (r.field ∈ mod.removedFields after)) ∧
      events.countP (fun e => e.kind == .localCreated) = 0 ∧
      (events.filter fun e => e.kind == .accessRedirected) = [] := by
  intro after events
  rcases p.idle_or_exists_global mod with hidle | ⟨hremove, front, t, back, hmod, ht, hfront⟩
  · obtain ⟨hmod, hjournal⟩ := finalize_idle hidle
    have hafter : after = mod := hmod
    have hevents : events = [] := congrArg Journal.events hjournal
    rw [hafter, hevents, removedFields_self]
    exact ⟨rfl, rfl, by simp, rfl, rfl⟩
  · have hevents : events = _ := (finalize_at hremove hmod ht hfront).2
    have hremoved : mod.removedFields after = _ := removedFields_finalize hremove hmod ht hfront
    have hkept : after.globalFields = _ := globalFields_finalize hremove mod
    have hfields := Module.globalFields_at hmod ht hfront
    set removed := t.fields.filter fun f => p.isConverted f.token
    set dangling := after.fieldReferences.filter fun r => removed.any fun f => f.token == r.field
    have hremovals : ∀ e ∈ removed.map removalEvent, e.kind = .artifactRemoved := by
      simp [removalEvent]
    have hwarnings : ∀ e ∈ dangling.map danglingEvent, e.kind = .warning := by
      simp [danglingEvent]
    have hnames : ∀ r : FieldReference, (removed.any fun f => f.token == r.field)
        = decide (r.field ∈ removed.map Field.token) := by
      simp [List.any_eq]
    -- each part is of one kind, so a count takes a part as a whole or not at all
    rw [hevents, hremoved, hkept, hfields]
    simp only [List.countP_append, List.filter_append, Event.countP_kind hremovals,
      Event.countP_kind hwarnings, Event.filter_kind hremovals, Event.filter_kind hwarnings,
      List.length_map, reduceCtorEq, if_true, if_false, Nat.add_zero, Nat.zero_add, List.append_nil,
      and_true, true_and]
    constructor
    · rw [Nat.add_comm]
      exact (List.length_eq_length_filter_add _).symm
    · rw [List.countP_eq_length_filter]
      simp only [dangling, hnames]

end Recovery

/-! ## Reports -/

/-- The pairs of a candidate and a method that accesses it, each once. -/
def Module.accessedPairs (mod : Module) : List (Token × Token) :=
  (mod.accesses.map FieldReference.key).dedup

/-- The type of a candidate could not be resolved. Of several eligible fields with one token the
last counts. -/
def Module.hasUnknownType (mod : Module) (field : Token) : Bool :=
  (mod.globalFields.reverse.find? fun f => f.isEligible && f.token == field).any fun f =>
    f.signature.isUnknown

theorem Candidate.isUnknown_collect (mod : Module) (field : Token) :
    isUnknown (collect mod.globalFields) field = mod.hasUnknownType field := by
  unfold isUnknown Module.hasUnknownType
  rw [find?_collect, Option.any_map]
  rfl

/-- The numbers in the report of a run, as they follow from the module before and after it. -/
structure Report.Tallies (config : RecoveryConfig) (before after : Module) (report : Report) :
    Prop where
  /-- Every access to a candidate is a change, through an object or not. Changes are counted in a
  machine word ... -/
  changes : report.changes = .ofNat before.accesses.length
  /-- ... so that they are the number of accesses, as long as that number fits. -/
  counted : before.accesses.length < UInt64.size →
    report.changes.toNat = before.accesses.length
  /-- For every static access there is an event at its place, in order; none if they are not
  wanted. -/
  redirected : (report.events.ofKind .accessRedirected).map Event.place
    = if config.recordAccesses then
        (before.accesses.filter FieldReference.isStatic).map FieldReference.place
      else []
  /-- For every pair of a candidate and a method that accesses it there is an event ... -/
  created : report.events.countKind .localCreated = before.accessedPairs.length
  /-- ... and a variable. -/
  grown : after.localCount = before.localCount + before.accessedPairs.length
  /-- What is removed are the fields that the global type has lost. -/
  removed : report.artifactsRemoved = (before.removedFields after).length
  remaining : after.globalFields.length + report.artifactsRemoved = before.globalFields.length
  /-- There is a warning for every such pair whose candidate has no known type, and for every access
  that still names a removed field. -/
  warned : report.events.countKind .warning
    = before.accessedPairs.countP (fun pair => before.hasUnknownType pair.1)
      + after.fieldReferences.countP fun r => decide (r.field ∈ before.removedFields after)
  /-- One line states the number of accesses, which is that of the changes as long as it fits, if
  there are any. -/
  summaries : report.summaries
    = if before.accesses.length = 0 then []
      else
        [{ message :=
            "Removed " ++ toString before.accesses.length ++ " local-to-field implementations" }]

namespace Recovery

variable {config : RecoveryConfig} {mod : Module}

/-- What is bound in the end is what was accessed. -/
theorem keys_perm_accessedPairs (hnodup : mod.typeTokens.Nodup)
    (hok : (session { config } mod (mod.typeTokens.map .process)).Succeeds) :
    ((session { config } mod (mod.typeTokens.map .process)).pass.bindings.map Binding.key).Perm
      mod.accessedPairs := by
  have hkeys := nodup_keys_session (p := { config }) List.nodup_nil mod
    (mod.typeTokens.map .process)
  -- neither list repeats a pair, so it is enough that they have the same members
  refine (List.perm_ext_iff_of_nodup hkeys (List.nodup_dedup _)).mpr fun key => ?_
  rw [List.mem_dedup]
  refine ((ledger_start config hnodup hok).bound key).trans ?_
  simp

end Recovery

namespace Engine

variable {τ : Type} [ModulePass τ] {e : Engine τ} {p : Recovery} {mod : Module} {time : Duration}
  {report : Report}

/-- The pass itself is recorded under two kinds of its own. Of the other kinds the report has the
events of the calls. -/
theorem ofKind_run (he : e.passes = [.inl p]) (h : Engine.report (e.run mod) time = .ok report)
    (kind : EventKind) (hstart : .passStarted ≠ kind) (hend : .passCompleted ≠ kind) :
    let s := p.session mod (mod.typeTokens.map .process)
    report.events.ofKind kind = (s.journal.events.filter fun e => e.kind == kind)
      ++ (s.pass.finalize s.mod).journal.events.filter fun e => e.kind == kind := by
  intro s
  obtain ⟨_, _, _, _, changedTypes, hevents⟩ := run_single he h
  have hstarted : ∀ e ∈ (startJournal p mod).events, e.kind = .passStarted := by
    simp [startJournal]
  have hcompleted : ∀ e ∈ (endJournal s.pass changedTypes).events, e.kind = .passCompleted := by
    simp [endJournal]
  unfold EventLog.ofKind
  rw [hevents, List.filter_append, List.filter_append, List.filter_append,
    Event.filter_kind hstarted, if_neg hstart, Event.filter_kind hcompleted, if_neg hend,
    List.nil_append, List.append_nil]

theorem countKind_run (he : e.passes = [.inl p])
    (h : Engine.report (e.run mod) time = .ok report) (kind : EventKind)
    (hstart : .passStarted ≠ kind) (hend : .passCompleted ≠ kind) :
    let s := p.session mod (mod.typeTokens.map .process)
    report.events.countKind kind = s.journal.events.countP (fun e => e.kind == kind)
      + (s.pass.finalize s.mod).journal.events.countP (fun e => e.kind == kind) := by
  have hlength := congrArg List.length (ofKind_run he h kind hstart hend)
  rw [List.length_append, ← List.countP_eq_length_filter, ← List.countP_eq_length_filter] at hlength
  exact List.countP_eq_length_filter.trans hlength

/-- **The accounts of a run.** Let types have tokens of their own, and let an engine whose only pass
is a new recovery run without an error. Then the numbers in its report are those of the module
before and after the run. -/
theorem run_tallies (e : Engine τ) (config : RecoveryConfig) (he : e.passes = [.inl { config }])
    (mod : Module) (htypes : mod.typeTokens.Nodup) (time : Duration) (report : Report)
    (hok : Engine.report (e.run mod) time = .ok report) :
    report.Tallies config mod (e.run mod).mod := by
  have hkind := ofKind_run he hok
  have hcount := countKind_run he hok
  obtain ⟨hsucceeds, hmod, hchanges, hsummaries, _⟩ := run_single he hok
  have hledger := Recovery.ledger_start config htypes hsucceeds
  have hperm := Recovery.keys_perm_accessedPairs htypes hsucceeds
  have hlocals := Recovery.localCount_session { config } mod (mod.typeTokens.map .process)
  have hfields : (Recovery.session { config } mod (mod.typeTokens.map .process)).mod.globalFields
      = mod.globalFields := Recovery.globalFields_session mod.typeTokens
  generalize Recovery.session { config } mod (mod.typeTokens.map .process) = s at *
  obtain ⟨hremoved, hremaining, hdangling, hnone, hnone'⟩ := s.pass.finalize_counts s.mod
  -- processing keeps the fields, so those that are gone have been removed by `finalize`
  have hgone : mod.removedFields (s.pass.finalize s.mod).mod
      = s.mod.removedFields (s.pass.finalize s.mod).mod := by
    unfold Module.removedFields
    rw [hfields]
  have hbound : s.pass.bindings.length = mod.accessedPairs.length := by
    rw [← hperm.length_eq, List.length_map]
  have hunknown : s.pass.bindings.countP
        (fun b => Candidate.isUnknown (Candidate.collect mod.globalFields) b.field)
      = mod.accessedPairs.countP fun pair => mod.hasUnknownType pair.1 := by
    rw [← hperm.countP_eq, List.countP_map]
    simp only [Candidate.isUnknown_collect]
    rfl
  have hartifacts : report.artifactsRemoved
      = (mod.removedFields (s.pass.finalize s.mod).mod).length := by
    unfold Report.artifactsRemoved
    rw [hcount _ (by decide) (by decide), hledger.kept, hremoved, hgone, Nat.zero_add]
  have hredirects : s.pass.redirects = mod.accesses.length :=
    hledger.counted.trans (Nat.zero_add _)
  rw [hredirects] at hchanges
  rw [hmod]
  constructor
  · exact hchanges
  · intro hfits
    rw [hchanges]
    exact UInt64.toNat_ofNat_of_lt' hfits
  · rw [hkind _ (by decide) (by decide), hnone', List.append_nil]
    exact hledger.redirected
  · rw [hcount _ (by decide) (by decide), hnone, ← hbound]
    exact hledger.created
  · unfold Module.localCount at hlocals ⊢
    rw [Recovery.finalize_methods, ← hbound]
    exact hlocals
  · exact hartifacts
  · rw [hartifacts, hgone, hremaining, hfields]
  · rw [hcount _ (by decide) (by decide), hdangling, hgone, ← hunknown]
    exact congrArg (· + _) hledger.warned
  · rw [hsummaries, Recovery.summaries, hredirects]

theorem run_tallies_hoistedPair :
    let e : Engine Recovery := .ofConfig {}
    ∃ report, Engine.report (e.run hoistedPair) {} = .ok report ∧
      report.Tallies {} hoistedPair (e.run hoistedPair).mod ∧ report.changes = 5 ∧
      report.events.countKind .localCreated = 4 ∧ report.artifactsRemoved = 2 ∧
      report.events.countKind .warning = 3 := by
  intro e
  have hsucceeds : (Engine.report (e.run hoistedPair) {}).isOk = true := by decide +kernel
  cases hok : Engine.report (e.run hoistedPair) {} with
  | error _ =>
      rw [hok] at hsucceeds
      cases hsucceeds
  | ok report =>
      have htallies := run_tallies e {} rfl hoistedPair (by decide) {} report hok
      refine ⟨report, rfl, htallies, htallies.changes.trans ?_, htallies.created.trans ?_,
        htallies.removed.trans ?_, htallies.warned.trans ?_⟩
      all_goals decide +kernel

end Engine

end LocalRecovery
