import LocalRecovery.Proofs.Accounting

set_option autoImplicit false

/-! # Switches

Two switches of the configuration are about the form of the outcome: whether each redirected access
is recorded, and whether changed code gets its shortest spelling. Neither has a say in what is done.

A recovery that does not record accesses goes through the same states as one that does, call by
call, and its journal is the other one with the redirected accesses left out (`session_quiet`).

Shrinking changes code that later calls come across, and what they make of it must not depend on
the spelling. A full run comes to each method once, so the walk finds the code as it was. Whether
the code is shrunk after that depends on whether it accesses a candidate (`Walk.changed_run`). At
the end only accesses to fields are looked at, and they are part of the meaning of code
(`Code.fieldReferences_shrink`). So a run with shrinking leaves the module of the run without it,
with the code of some methods in the shortest spelling (`fullRun_shrinking`).
-/

namespace LocalRecovery

/-! ## Without the record of accesses -/

/-- The journal without the events for redirected accesses. -/
def Journal.quiet (j : Journal) : Journal :=
  { j with events := j.events.filter fun e => e.kind != .accessRedirected }

def RecoveryConfig.quiet (config : RecoveryConfig) : RecoveryConfig :=
  { config with recordAccesses := false }

/-- The recovery that does not record accesses. -/
def Recovery.quiet (p : Recovery) : Recovery :=
  { p with config := p.config.quiet }

def Walk.Move.quiet (move : Move) : Move :=
  { move with journal := move.journal.quiet }

def Walk.End.quiet (stop : End) : End :=
  { stop with journal := stop.journal.quiet }

def Redirection.quiet {α : Type} (r : Redirection α) : Redirection α :=
  { r with pass := r.pass.quiet, journal := r.journal.quiet }

def Step.quiet {α : Type} (s : Step Recovery α) : Step Recovery α :=
  { s with pass := s.pass.quiet, journal := s.journal.quiet }

def Session.quiet (s : Session) : Session :=
  { s with pass := s.pass.quiet, journal := s.journal.quiet }

namespace Journal

theorem quiet_append (first second : Journal) :
    (first ++ second).quiet = first.quiet ++ second.quiet := by
  show Journal.mk (List.filter _ (_ ++ _)) _ = Journal.mk _ _
  rw [List.filter_append]
  rfl

/-- Nothing is left out if there are no events for redirected accesses. -/
theorem quiet_eq_self {j : Journal} (h : ∀ e ∈ j.events, e.kind ≠ .accessRedirected) :
    j.quiet = j := by
  show Journal.mk (List.filter _ _) _ = j
  rw [List.filter_eq_self.mpr fun e he => bne_iff_ne.mpr (h e he)]

end Journal

namespace Walk

variable {config : RecoveryConfig} {candidates : List Candidate} {method : Token}

/-- A variable is recorded in any case. -/
theorem quiet_of_slotFor {c : Candidate} {w w' : Walk} {slot : UInt16} {created : Journal}
    (h : slotFor method c w = .ok (slot, w', created)) : created.quiet = created := by
  rcases slotFor_ok_inv h with ⟨_, _, rfl⟩ | ⟨_, _, _, _, rfl⟩
  · rfl
  · unfold localJournal
    split_ifs <;> rfl

theorem step_quiet (index : Nat) (i : Instruction) (w : Walk) :
    step config.quiet candidates method index i w
      = (step config candidates method index i w).map Move.quiet := by
  unfold step
  cases i.fieldToken?.bind (Candidate.find? candidates) with
  | none => rfl
  | some c =>
      simp only [redirect]
      cases hs : slotFor method c w with
      | error e => rfl
      | ok found =>
          obtain ⟨slot, w', created⟩ := found
          have hcreated := quiet_of_slotFor hs
          cases i.opcode.staticAccess? with
          | none =>
              simp only [Except.map, Move.quiet, Journal.quiet_append, hcreated]
              rfl
          | some kind =>
              have hbuild : Instruction.build (Opcode.localAccess kind) (.localSlot slot)
                  = .ok ⟨Opcode.localAccess kind, .localSlot slot⟩ := rfl
              simp only [hbuild, Except.map, Move.quiet, Journal.quiet_append, hcreated]
              -- the one event that depends on the switch is left out in any case
              cases config.recordAccesses <;> rfl

/-- A walk that does not record accesses does the same as one that does. -/
theorem run_quiet (code : Code) (index : Nat) (w : Walk) :
    run config.quiet candidates method index code w
      = (run config candidates method index code w).quiet := by
  induction code generalizing index w with
  | nil => rfl
  | cons i rest ih =>
      unfold run
      rw [step_quiet]
      cases step config candidates method index i w with
      | error e => rfl
      | ok move =>
          simp only [Except.map, End.quiet, Journal.quiet_append]
          rw [show (Move.quiet move).walk = move.walk from rfl, ih]
          rfl

end Walk

namespace Recovery

theorem redirectBody_quiet (p : Recovery) (method : Token) (b : Body) :
    p.quiet.redirectBody method b = (p.redirectBody method b).quiet := by
  have hwalk : p.quiet.walk method b = (p.walk method b).quiet := Walk.run_quiet b.code 0 _
  unfold walk at hwalk
  unfold redirectBody
  rw [hwalk]
  generalize Walk.run p.config (p.candidates.getD []) method 0 b.code _ = stop
  rcases stop with ⟨code, w, _ | e, journal⟩ <;> rfl

theorem redirectMethod_quiet (p : Recovery) (m : Method) :
    p.quiet.redirectMethod m = (p.redirectMethod m).quiet := by
  rcases m with ⟨token, name, _ | b⟩
  · rfl
  · unfold redirectMethod
    simp only [redirectBody_quiet]
    rfl

theorem redirectMethods_quiet (p : Recovery) (methods : List Method) :
    p.quiet.redirectMethods methods = (p.redirectMethods methods).quiet := by
  induction methods generalizing p with
  | nil => rfl
  | cons m rest ih =>
      unfold redirectMethods
      rw [redirectMethod_quiet]
      simp only [Redirection.quiet]
      rw [ih]
      cases (p.redirectMethod m).result with
      | error e => rfl
      | ok changed =>
          simp only [Journal.quiet_append]
          rfl

theorem locate_quiet (p : Recovery) (mod : Module) :
    p.quiet.locate mod = ((p.locate mod).1.quiet, (p.locate mod).2.quiet) := by
  rw [Journal.quiet_eq_self fun e he => by rw [p.locate_events mod e he]; decide]
  rcases p with ⟨config, _ | candidates, bindings, redirects⟩ <;> rfl

theorem process_quiet (p : Recovery) (mod : Module) (token : Token) :
    p.quiet.process mod token = (p.process mod token).quiet := by
  unfold process
  rw [locate_quiet]
  simp only [redirectMethods_quiet]
  rcases forall_or_exists_first (fun t : TypeDef => t.token == token) mod.types with
    hnone | ⟨front, t, back, hmod, ht, hfront⟩
  · unfold Module.updateType
    rw [updateFirst?_eq_none hnone, updateFirst?_eq_none hnone]
    rfl
  · obtain rfl : t.token = token := by simpa using ht
    have hfirst : ∀ u ∈ front, u.token ≠ t.token := fun u hu => by simpa using hfront u hu
    rw [Module.updateType_at hmod hfirst, Module.updateType_at hmod hfirst]
    simp only [Step.quiet, Journal.quiet_append]
    rfl

theorem finalize_quiet (p : Recovery) (mod : Module) :
    p.quiet.finalize mod = (p.finalize mod).quiet := by
  unfold finalize
  rw [show p.quiet.config.removeFields = p.config.removeFields from rfl,
    show p.quiet.bindings = p.bindings from rfl,
    show p.quiet.removeConverted = p.removeConverted from rfl]
  split_ifs
  · cases mod.updateGlobal? p.removeConverted with
    | none => rfl
    | some found =>
        simp only [Step.quiet]
        rw [Journal.quiet_eq_self]
        intro e he
        rcases List.mem_append.mp he with he | he <;> obtain ⟨_, _, rfl⟩ := List.mem_map.mp he
        · simp [removalEvent]
        · simp [danglingEvent]
  · rfl

theorem call_quiet (p : Recovery) (mod : Module) (c : Call) :
    p.quiet.call mod c = (p.call mod c).quiet := by
  cases c with
  | locate =>
      unfold call
      rw [locate_quiet]
      rfl
  | process type => exact p.process_quiet mod type
  | finalize =>
      unfold call
      rw [finalize_quiet]
      rfl

/-- Any calls do the same whether accesses are recorded or not. -/
theorem session_quiet (p : Recovery) (mod : Module) (calls : List Call) :
    p.quiet.session mod calls = (p.session mod calls).quiet := by
  induction calls generalizing p mod with
  | nil => rfl
  | cons c rest ih =>
      unfold session
      rw [call_quiet]
      simp only [Step.quiet, Session.quiet, Journal.quiet_append]
      rw [ih]
      rfl

end Recovery

/-! ## With the shortest spelling -/

def RecoveryConfig.shrinking (config : RecoveryConfig) : RecoveryConfig :=
  { config with shrinkCode := true }

/-- The recovery that gives changed code its shortest spelling. -/
def Recovery.shrinking (p : Recovery) : Recovery :=
  { p with config := p.config.shrinking }

/-- The method with the shortest spelling of its code, if its token is among those. -/
def Method.shrinkIf (among : Token → Bool) (m : Method) : Method :=
  if among m.token then { m with body := m.body.map Body.shrink } else m

def TypeDef.shrinkIf (among : Token → Bool) (t : TypeDef) : TypeDef :=
  { t with methods := t.methods.map (Method.shrinkIf among) }

/-- The module with the shortest spelling of the code of some methods. -/
def Module.shrinkIf (among : Token → Bool) (mod : Module) : Module :=
  { mod with types := mod.types.map (TypeDef.shrinkIf among) }

/-- The method accesses a candidate. -/
def Module.touches (mod : Module) (method : Token) : Bool :=
  mod.accesses.any fun r => r.method == method

namespace Walk

variable {config : RecoveryConfig} {candidates : List Candidate} {method : Token}

/-- A walk does not ask how the code is to be spelled. -/
theorem run_shrinking (code : Code) (index : Nat) (w : Walk) :
    run config.shrinking candidates method index code w
      = run config candidates method index code w := by
  induction code generalizing index w with
  | nil => rfl
  | cons i rest ih =>
      unfold run
      rw [show step config.shrinking candidates method index i w
        = step config candidates method index i w from rfl]
      simp only [ih]

/-- A step keeps the note of a change, and it makes one where a variable is declared. -/
theorem changed_step {index : Nat} {i : Instruction} {c : Candidate} {w : Walk} {move : Move}
    (hc : i.candidate? candidates = some c)
    (h : step config candidates method index i w = .ok move)
    (hw : w.changed = true ∨ Binding.find? w.bindings c.token method = none) :
    move.walk.changed = true := by
  obtain ⟨slot, w', created, hs, _, hwalk, _⟩ := step_ok_inv hc h
  rw [hwalk]
  rcases slotFor_ok_inv hs with ⟨hf, rfl, _⟩ | ⟨_, _, _, rfl, _⟩
  · have hchanged := hw.resolve_right (by rw [hf]; exact Option.some_ne_none slot)
    simp [hchanged]
  · rfl

theorem changed_run_of_changed (code : Code) (index : Nat) {w : Walk} (hw : w.changed = true) :
    (run config candidates method index code w).walk.changed = true := by
  refine run_preserves (P := fun v => v.changed = true) code ?_ index hw
  intro _ i _ v move hs hv
  cases hc : i.candidate? candidates with
  | none =>
      rw [step_of_none hc] at hs
      cases hs
      exact hv
  | some c => exact changed_step hc hs (Or.inl hv)

/-- In a method without bindings there is a change if the code accesses a candidate, be it through
an object. -/
theorem changed_run (code : Code) (index : Nat) {w : Walk} (hw : w.changed = false)
    (hfresh : ∀ field, Binding.find? w.bindings field method = none)
    (hok : (run config candidates method index code w).error = none) :
    (run config candidates method index code w).walk.changed
      = decide (0 < code.accessCount candidates) := by
  induction code generalizing index w with
  | nil => exact hw
  | cons i rest ih =>
      cases hs : step config candidates method index i w with
      | error e =>
          rw [run_cons_of_error hs] at hok
          cases hok
      | ok move =>
          rw [run_cons_of_ok hs] at hok ⊢
          unfold Code.accessCount
          -- up to the first access the walk is what it was, and from then on there is a change
          cases hc : i.candidate? candidates with
          | none =>
              rw [step_of_none hc] at hs
              cases hs
              rw [List.countP_cons_of_neg (by simp [hc])]
              exact ih (index + 1) hw hfresh hok
          | some c =>
              have hchanged := changed_step hc hs (Or.inr (hfresh c.token))
              rw [List.countP_cons_of_pos (by simp [hc])]
              simp only [changed_run_of_changed rest (index + 1) hchanged]
              simp

end Walk

namespace Recovery

variable {p : Recovery}

theorem redirectBody_shrinking (hplain : p.config.shrinkCode = false) (method : Token) (b : Body) :
    let r := p.redirectBody method b
    let shrunk := p.shrinking.redirectBody method b
    shrunk.result = r.result ∧ shrunk.pass = r.pass.shrinking ∧ shrunk.journal = r.journal ∧
      ∀ changed, r.result = .ok changed →
        shrunk.part = if changed then r.part.shrink else r.part := by
  have hwalk : p.shrinking.walk method b = p.walk method b := Walk.run_shrinking b.code 0 _
  unfold walk at hwalk
  unfold redirectBody
  rw [hwalk, hplain, show p.shrinking.config.shrinkCode = true from rfl]
  generalize Walk.run p.config (p.candidates.getD []) method 0 b.code _ = stop
  rcases stop with ⟨code, w, _ | e, journal⟩
  · refine ⟨rfl, rfl, rfl, ?_⟩
    rintro changed ⟨⟩
    simp
  · refine ⟨rfl, rfl, rfl, ?_⟩
    rintro changed ⟨⟩

/-- A new method has changed if it accesses a candidate. -/
theorem redirectBody_changed {method : Token} {b : Body} {changed : Bool}
    (hfresh : ∀ field, Binding.find? p.bindings field method = none)
    (h : (p.redirectBody method b).result = .ok changed) :
    changed = decide (0 < b.code.accessCount (p.candidates.getD [])) := by
  obtain ⟨hok, _⟩ := redirectBody_ok_inv h
  rw [(redirectBody_of_none hok).1] at h
  exact (Except.ok.inj h).symm.trans (Walk.changed_run b.code 0 rfl hfresh hok)

theorem redirectMethod_shrinking (hplain : p.config.shrinkCode = false) (m : Method) :
    let r := p.redirectMethod m
    let shrunk := p.shrinking.redirectMethod m
    shrunk.result = r.result ∧ shrunk.pass = r.pass.shrinking ∧ shrunk.journal = r.journal := by
  rcases m with ⟨token, name, _ | b⟩
  · exact ⟨rfl, rfl, rfl⟩
  · obtain ⟨hresult, hpass, hjournal, _⟩ := redirectBody_shrinking hplain token b
    exact ⟨hresult, hpass, hjournal⟩

theorem redirectMethod_part_shrinking (hplain : p.config.shrinkCode = false) {m : Method}
    (hfresh : ∀ field, Binding.find? p.bindings field m.token = none) {changed : Bool}
    (h : (p.redirectMethod m).result = .ok changed) {among : Token → Bool}
    (hamong : among m.token = decide (0 < m.accessCount (p.candidates.getD []))) :
    (p.shrinking.redirectMethod m).part = (p.redirectMethod m).part.shrinkIf among := by
  rcases m with ⟨token, name, _ | b⟩
  · unfold Method.shrinkIf
    split_ifs <;> rfl
  · obtain ⟨_, _, _, hpart⟩ := redirectBody_shrinking hplain token b
    have hchanged : among token = changed :=
      hamong.trans (redirectBody_changed hfresh (b := b) h).symm
    show Method.mk token name (some (p.shrinking.redirectBody token b).part)
      = (Method.mk token name (some (p.redirectBody token b).part)).shrinkIf among
    unfold Method.shrinkIf
    rw [hpart changed h, hchanged]
    cases changed <;> rfl

theorem shrinkCode_redirectMethod (hplain : p.config.shrinkCode = false) (m : Method) :
    (p.redirectMethod m).pass.config.shrinkCode = false := by
  rw [(p.redirectMethod_pass m).1]
  exact hplain

/-- Whether redirecting succeeds, what it binds and what it records does not depend on the
spelling. -/
theorem redirectMethods_shrinking (hplain : p.config.shrinkCode = false) (methods : List Method) :
    let r := p.redirectMethods methods
    let shrunk := p.shrinking.redirectMethods methods
    shrunk.result = r.result ∧ shrunk.pass = r.pass.shrinking ∧ shrunk.journal = r.journal := by
  induction methods generalizing p with
  | nil => exact ⟨rfl, rfl, rfl⟩
  | cons m rest ih =>
      obtain ⟨hresult, hpass, hjournal⟩ := redirectMethod_shrinking hplain m
      cases hfirst : (p.redirectMethod m).result with
      | error e =>
          rw [redirectMethods_cons_of_error hfirst,
            redirectMethods_cons_of_error (hresult.trans hfirst)]
          exact ⟨rfl, hpass, hjournal⟩
      | ok changed =>
          rw [redirectMethods_cons_of_ok hfirst, redirectMethods_cons_of_ok (hresult.trans hfirst),
            hpass]
          obtain ⟨hresult', hpass', hjournal'⟩ := ih (shrinkCode_redirectMethod hplain m)
          refine ⟨congrArg (Except.map (changed || ·)) hresult', hpass', ?_⟩
          simp only [hjournal, hjournal']

/-- The methods that access a candidate end up in the shortest spelling. -/
theorem redirectMethods_part_shrinking {methods : List Method}
    (hplain : p.config.shrinkCode = false) (hnodup : (methods.map Method.token).Nodup)
    (hfresh : ∀ m ∈ methods, ∀ field, Binding.find? p.bindings field m.token = none)
    {changed : Bool} (h : (p.redirectMethods methods).result = .ok changed) {among : Token → Bool}
    (hamong : ∀ m ∈ methods,
      among m.token = decide (0 < m.accessCount (p.candidates.getD []))) :
    (p.shrinking.redirectMethods methods).part
      = (p.redirectMethods methods).part.map (Method.shrinkIf among) := by
  induction methods generalizing p changed with
  | nil => rfl
  | cons m rest ih =>
      rw [List.map_cons, List.nodup_cons] at hnodup
      obtain ⟨⟨changed₁, hfirst⟩, ⟨changed₂, hrest⟩, _⟩ := redirectMethods_ok_inv h
      obtain ⟨hresult, hpass, _⟩ := redirectMethod_shrinking hplain m
      have hfresh' : ∀ n ∈ rest, ∀ field,
          Binding.find? (p.redirectMethod m).pass.bindings field n.token = none := by
        intro n hn field
        rw [p.find?_redirectMethod_of_ne (fun heq => absurd ?_ hnodup.1)]
        · exact hfresh n (List.mem_cons_of_mem m hn) field
        · rw [heq]
          exact List.mem_map_of_mem hn
      have hpart := redirectMethod_part_shrinking hplain (hfresh m List.mem_cons_self) hfirst
        (hamong m List.mem_cons_self)
      have hparts := ih (shrinkCode_redirectMethod hplain m) hnodup.2 hfresh' hrest fun n hn => by
        rw [(p.redirectMethod_pass m).2]
        exact hamong n (List.mem_cons_of_mem m hn)
      rw [redirectMethods_cons_of_ok hfirst, redirectMethods_cons_of_ok (hresult.trans hfirst),
        hpass]
      exact congrArg₂ List.cons hpart hparts

end Recovery

/-! ## All types, with and without shrinking -/

section

variable {config : RecoveryConfig} {candidates : List Candidate}

theorem TypeDef.work_shrinking (hplain : config.shrinkCode = false)
    (candidates : List Candidate) (t : TypeDef) :
    let r := t.work config candidates
    let shrunk := t.work config.shrinking candidates
    shrunk.result = r.result ∧ shrunk.pass = r.pass.shrinking ∧ shrunk.journal = r.journal :=
  Recovery.redirectMethods_shrinking (p := .opening config candidates) hplain t.methods

theorem Recovery.after_shrinking (hplain : config.shrinkCode = false) (done : List TypeDef) :
    after config.shrinking candidates done = (after config candidates done).shrinking := by
  have hbindings : ∀ t : TypeDef, (t.work config.shrinking candidates).pass.bindings
      = (t.work config candidates).pass.bindings := fun t => by
    rw [(TypeDef.work_shrinking hplain candidates t).2.1]
    rfl
  have hredirects : ∀ t : TypeDef, (t.work config.shrinking candidates).pass.redirects
      = (t.work config candidates).pass.redirects := fun t => by
    rw [(TypeDef.work_shrinking hplain candidates t).2.1]
    rfl
  unfold after
  simp only [hbindings, hredirects]
  rfl

theorem Method.method_of_mem_accesses {candidates : List Candidate} {m : Method}
    {r : FieldReference} (h : r ∈ m.accesses candidates) : r.method = m.token := by
  have hmem := (List.mem_filter.mp h).1
  unfold Method.fieldReferences at hmem
  split at hmem
  · cases hmem
  · obtain ⟨⟨i, k⟩, _, hr⟩ := List.mem_filterMap.mp hmem
    obtain ⟨field, _, rfl⟩ := Option.map_eq_some_iff.mp hr
    rfl

/-- If methods have tokens of their own, a token is as good as the method. -/
theorem Module.touches_eq {mod : Module} (hmethods : (mod.methods.map Method.token).Nodup)
    {m : Method} (hm : m ∈ mod.methods) :
    mod.touches m.token = decide (0 < m.accessCount (Candidate.collect mod.globalFields)) := by
  have haccesses : mod.accesses
      = mod.methods.flatMap (Method.accesses (Candidate.collect mod.globalFields)) := by
    rw [Module.accesses_eq]
    unfold Module.methods
    rw [List.flatMap_assoc]
  rw [← Method.length_accesses, Bool.eq_iff_iff, decide_eq_true_iff, List.length_pos_iff_exists_mem]
  unfold Module.touches
  rw [List.any_eq_true, haccesses]
  constructor
  · rintro ⟨r, hr, htoken⟩
    obtain ⟨n, hn, hrn⟩ := List.mem_flatMap.mp hr
    have hsame : n.token = m.token :=
      (Method.method_of_mem_accesses hrn).symm.trans (beq_iff_eq.mp htoken)
    obtain rfl := List.inj_on_of_nodup_map hmethods hn hm hsame
    exact ⟨r, hrn⟩
  · rintro ⟨r, hr⟩
    exact ⟨r, List.mem_flatMap.mpr ⟨m, hm, hr⟩, beq_iff_eq.mpr (Method.method_of_mem_accesses hr)⟩

/-- Processing all types leads to the module in the shortest spelling, where it is touched. -/
theorem Module.after_shrinking {mod : Module} (hplain : config.shrinkCode = false)
    (hmethods : (mod.methods.map Method.token).Nodup) {done : List TypeDef}
    (hdone : ∀ t ∈ mod.types, t ∈ done)
    (hok : ∀ t ∈ mod.types, ∃ changed,
      (t.work config (Candidate.collect mod.globalFields)).result = .ok changed) :
    mod.after config.shrinking (Candidate.collect mod.globalFields) done
      = (mod.after config (Candidate.collect mod.globalFields) done).shrinkIf mod.touches := by
  unfold Module.after Module.shrinkIf
  rw [List.map_map]
  congr 1
  refine List.map_congr_left fun t ht => ?_
  obtain ⟨changed, hchanged⟩ := hok t ht
  have hpart : (t.work config.shrinking (Candidate.collect mod.globalFields)).part
      = (t.work config (Candidate.collect mod.globalFields)).part.map
          (Method.shrinkIf mod.touches) := by
    refine Recovery.redirectMethods_part_shrinking hplain ?_ (fun _ _ _ => rfl) hchanged ?_
    · unfold Module.methods at hmethods
      rw [List.map_flatMap, List.nodup_flatMap] at hmethods
      exact hmethods.1 t ht
    · exact fun m hm => Module.touches_eq hmethods (List.mem_flatMap.mpr ⟨t, ht, hm⟩)
  simp only [Function.comp_apply, TypeDef.after, if_pos (hdone t ht), hpart, TypeDef.shrinkIf]

end

/-! ## The end, with and without shrinking -/

/-- The opcode and the field of an access. -/
def Meaning.fieldAccess? : Meaning → Option (Opcode × Token)
  | .itself i => i.fieldToken?.map fun field => (i.opcode, field)
  | _ => none

/-- The access to a field is part of the meaning. -/
theorem Instruction.fieldAccess?_meaning (i : Instruction) :
    i.meaning.fieldAccess? = i.fieldToken?.map fun field => (i.opcode, field) := by
  cases hi : i.fieldToken? with
  | some field =>
      rw [meaning_of_fieldToken? hi]
      exact congrArg (Option.map fun field => (i.opcode, field)) hi
  | none =>
      cases hmeaning : i.meaning with
      | itself j =>
          obtain rfl := eq_of_meaning_itself hmeaning
          exact congrArg (Option.map fun field => (i.opcode, field)) hi
      | _ => rfl

theorem Code.fieldReferences_shrink (method : Token) (code : Code) :
    code.shrink.fieldReferences method = code.fieldReferences method := by
  have hmeaning : ∀ c : Code, c.fieldReferences method
      = (c.map Instruction.meaning).zipIdx.filterMap fun entry =>
          entry.1.fieldAccess?.map fun access => ⟨method, entry.2, access.1, access.2⟩ := by
    intro c
    unfold Code.fieldReferences
    rw [List.zipIdx_map, List.filterMap_map]
    refine List.filterMap_congr ?_
    rintro ⟨i, index⟩ _
    show i.fieldToken?.map _ = i.meaning.fieldAccess?.map _
    rw [Instruction.fieldAccess?_meaning, Option.map_map]
    rfl
  rw [hmeaning, hmeaning, Code.map_meaning_shrink]

theorem Method.fieldReferences_shrinkIf (among : Token → Bool) (m : Method) :
    (m.shrinkIf among).fieldReferences = m.fieldReferences := by
  unfold Method.shrinkIf
  split_ifs
  · unfold Method.fieldReferences
    cases m.body with
    | none => rfl
    | some b => exact Code.fieldReferences_shrink m.token b.code
  · rfl

theorem Module.fieldReferences_shrinkIf (among : Token → Bool) (mod : Module) :
    (mod.shrinkIf among).fieldReferences = mod.fieldReferences := by
  unfold Module.fieldReferences Module.shrinkIf TypeDef.shrinkIf
  simp only [List.flatMap_map, Method.fieldReferences_shrinkIf]

/-- Replacing the first element and mapping go together if neither disturbs the other. -/
theorem updateFirst?_map {α β : Type} {p : α → Bool} {update : α → β × α} {f : α → α}
    (hp : ∀ a, p (f a) = p a) (hupdate : ∀ a, update (f a) = ((update a).1, f (update a).2))
    (l : List α) :
    updateFirst? p update (l.map f)
      = (updateFirst? p update l).map fun found => (found.1, found.2.map f) := by
  induction l with
  | nil => rfl
  | cons a rest ih =>
      rw [List.map_cons, updateFirst?, updateFirst?, hp]
      split_ifs
      · rw [hupdate]
        rfl
      · rw [ih, Option.map_map, Option.map_map]
        rfl

namespace Recovery

/-- `finalize` does not ask how the code is spelled. -/
theorem finalize_shrinking (p : Recovery) (mod : Module) (among : Token → Bool) :
    let s := p.finalize mod
    let shrunk := p.shrinking.finalize (mod.shrinkIf among)
    shrunk.mod = s.mod.shrinkIf among ∧ shrunk.journal = s.journal := by
  have hglobal : ∀ t : TypeDef, (t.shrinkIf among).isGlobal = t.isGlobal := fun _ => rfl
  have hremove : ∀ t : TypeDef, p.removeConverted (t.shrinkIf among)
      = ((p.removeConverted t).1, (p.removeConverted t).2.shrinkIf among) := fun _ => rfl
  have hfirst : updateFirst? TypeDef.isGlobal p.shrinking.removeConverted
        (mod.shrinkIf among).types
      = (updateFirst? TypeDef.isGlobal p.removeConverted mod.types).map fun found =>
          (found.1, found.2.map (TypeDef.shrinkIf among)) :=
    updateFirst?_map hglobal hremove mod.types
  have hupdate : (mod.shrinkIf among).updateGlobal? p.shrinking.removeConverted
      = (mod.updateGlobal? p.removeConverted).map fun found =>
          (found.1, found.2.shrinkIf among) := by
    unfold Module.updateGlobal?
    rw [hfirst, Option.map_map, Option.map_map]
    rfl
  intro s shrunk
  unfold s shrunk finalize
  rw [hupdate, show p.shrinking.config.removeFields = p.config.removeFields from rfl,
    show p.shrinking.bindings = p.bindings from rfl]
  split_ifs
  · cases mod.updateGlobal? p.removeConverted with
    | none => exact ⟨rfl, rfl⟩
    | some found =>
        simp only [Option.map_some, Module.fieldReferences_shrinkIf, and_self]
  · exact ⟨rfl, rfl⟩

/-! ## Sessions -/

/-- Processing all types, with and without shrinking. -/
theorem session_shrinking {config : RecoveryConfig} (hplain : config.shrinkCode = false)
    {mod : Module} (htypes : mod.typeTokens.Nodup)
    (hmethods : (mod.methods.map Method.token).Nodup) {tokens : List Token}
    (htokens : tokens.Perm mod.typeTokens) :
    let s := session { config } mod (tokens.map .process)
    let shrunk := session { config := config.shrinking } mod (tokens.map .process)
    shrunk.results = s.results ∧ shrunk.pass = s.pass.shrinking ∧
      shrunk.journal.events = s.journal.events ∧
      (s.Succeeds → shrunk.mod = s.mod.shrinkIf mod.touches) := by
  obtain ⟨order, rfl, horder⟩ := exists_order htokens
  by_cases hne : order = []
  · -- there are no types
    subst hne
    have hempty : mod.types = [] := horder.nil_eq.symm
    refine ⟨rfl, rfl, rfl, fun _ => ?_⟩
    show Module.mk mod.name mod.types = Module.mk mod.name (mod.types.map _)
    rw [hempty]
    rfl
  · obtain ⟨hresults, hpass, hmod, hevents⟩ := session_all config htypes hmethods horder hne
    obtain ⟨hresults', hpass', hmod', hevents'⟩ :=
      session_all config.shrinking htypes hmethods horder hne
    have hwork := TypeDef.work_shrinking hplain (Candidate.collect mod.globalFields)
    refine ⟨?_, ?_, ?_, fun hok => ?_⟩
    · rw [hresults, hresults']
      simp only [(hwork _).1]
    · rw [hpass, hpass', after_shrinking hplain]
    · rw [hevents, hevents']
      simp only [(hwork _).2.2]
      rfl
    · rw [hmod, hmod']
      refine Module.after_shrinking hplain hmethods ?_ ?_
      · exact fun t ht => List.mem_reverse.mpr (horder.mem_iff.mpr ht)
      · intro t ht
        refine hok _ ?_
        rw [hresults]
        exact List.mem_map_of_mem (horder.mem_iff.mpr ht)

/-- A full run, with and without shrinking. -/
theorem fullRun_shrinking {config : RecoveryConfig} (hplain : config.shrinkCode = false)
    {mod : Module} (htypes : mod.typeTokens.Nodup)
    (hmethods : (mod.methods.map Method.token).Nodup) {tokens : List Token}
    (htokens : tokens.Perm mod.typeTokens) :
    let calls := tokens.map .process ++ [.finalize]
    let s := session { config } mod calls
    let shrunk := session { config := config.shrinking } mod calls
    shrunk.results = s.results ∧ shrunk.pass = s.pass.shrinking ∧
      (s.Succeeds → shrunk.journal.events = s.journal.events ∧
        shrunk.mod = s.mod.shrinkIf mod.touches) := by
  obtain ⟨hresults, hpass, hevents, hmod⟩ := session_shrinking hplain htypes hmethods htokens
  obtain ⟨hended, hlast, hfinal, hlog⟩ := session_finalize { config } mod (tokens.map .process)
  obtain ⟨hended', hlast', hfinal', hlog'⟩ :=
    session_finalize { config := config.shrinking } mod (tokens.map .process)
  intro calls s shrunk
  refine ⟨?_, ?_, fun hok => ?_⟩
  · rw [show shrunk.results = _ from hended', hresults]
    exact hended.symm
  · rw [show shrunk.pass = _ from hlast', hpass]
    exact congrArg shrinking hlast.symm
  · have hprocessed := hmod fun r hr => hok r (by
      rw [show s.results = _ from hended]
      exact List.mem_append_left _ hr)
    obtain ⟨hmods, hjournal⟩ := finalize_shrinking
      (session { config } mod (tokens.map .process)).pass
      (session { config } mod (tokens.map .process)).mod mod.touches
    rw [show shrunk.journal.events = _ from hlog', show s.journal.events = _ from hlog,
      show shrunk.mod = _ from hfinal', show s.mod = _ from hfinal, hpass, hprocessed, hmods,
      hjournal, hevents]
    exact ⟨rfl, rfl⟩

/-- A method that keeps a counter in a global field, and one beside it that does not. -/
def hoistedAside : Module :=
  hoistedCounter.addType
    { token := ⟨0x02000003⟩, space := "", name := "Aside"
      methods :=
        [ { token := ⟨0x06000002⟩, name := "Five"
            body := some { code := [⟨.constant .long, .immediate (.int32 5)⟩] } } ] }

/-- **Switches do not interfere.** Let types and methods have tokens of their own, and let all
recoveries be new. First, any calls have the same results and lead to the same module, bindings,
count and summaries whether accesses are recorded or not; what is recorded without them is the same
log with the redirected accesses left out. Second, processing all types, in any order, and
finalizing has the same results whether code is shrunk or not. If it succeeds, events, bindings,
count and fields are the same, and the modules differ only in spelling: the code of the methods that
accessed a candidate is shrunk, and that of the others is what it is without shrinking. -/
theorem session_switches (config : RecoveryConfig) (mod : Module) (htypes : mod.typeTokens.Nodup)
    (hmethods : (mod.methods.map Method.token).Nodup) :
    (∀ calls : List Call,
      let on := session { config := { config with recordAccesses := true } } mod calls
      let off := session { config := { config with recordAccesses := false } } mod calls
      off.results = on.results ∧ off.mod = on.mod ∧ off.pass.bindings = on.pass.bindings ∧
        off.pass.redirects = on.pass.redirects ∧ off.pass.summaries = on.pass.summaries ∧
        off.journal.events = on.journal.events.filter fun e => e.kind != .accessRedirected) ∧
    ∀ order : List Token, order.Perm mod.typeTokens →
      let calls := order.map .process ++ [.finalize]
      let shrunk := session { config := { config with shrinkCode := true } } mod calls
      let plain := session { config := { config with shrinkCode := false } } mod calls
      shrunk.results = plain.results ∧
        (plain.Succeeds →
          shrunk.journal.events = plain.journal.events ∧
          shrunk.pass.bindings = plain.pass.bindings ∧
          shrunk.pass.redirects = plain.pass.redirects ∧
          shrunk.mod.types.map TypeDef.fields = plain.mod.types.map TypeDef.fields ∧
          shrunk.mod = plain.mod.shrinkIf mod.touches) := by
  refine ⟨fun calls => ?_, fun order horder => ?_⟩
  · intro on off
    have hquiet : off = on.quiet :=
      session_quiet { config := { config with recordAccesses := true } } mod calls
    rw [hquiet]
    exact ⟨rfl, rfl, rfl, rfl, rfl, rfl⟩
  · intro calls shrunk plain
    have hplain : ({ config with shrinkCode := false } : RecoveryConfig).shrinkCode = false := rfl
    obtain ⟨hresults, hpass, hok⟩ := fullRun_shrinking hplain htypes hmethods horder
    have hsame : shrunk.pass = plain.pass.shrinking := hpass
    refine ⟨hresults, fun hsucceeds => ?_⟩
    obtain ⟨hevents, hmod⟩ := hok hsucceeds
    have hspelling : shrunk.mod = plain.mod.shrinkIf mod.touches := hmod
    refine ⟨hevents, by rw [hsame]; rfl, by rw [hsame]; rfl, ?_, hspelling⟩
    rw [hspelling]
    unfold Module.shrinkIf
    rw [List.map_map]
    rfl

/-- One of two methods accesses a candidate, and both have a long constant. -/
theorem session_switches_hoistedAside :
    let calls := fullRun hoistedAside
    let s := session {} hoistedAside calls
    let quiet := session { config := { recordAccesses := false } } hoistedAside calls
    let plain := session { config := { shrinkCode := false } } hoistedAside calls
    plain.Succeeds ∧ quiet.mod = s.mod ∧ s.journal.events.length = 5 ∧
      quiet.journal.events.length = 4 ∧
      (quiet.journal.events = s.journal.events.filter fun e => e.kind != .accessRedirected) ∧
      hoistedAside.touches ⟨0x06000001⟩ = true ∧ hoistedAside.touches ⟨0x06000002⟩ = false ∧
      s.mod ≠ plain.mod ∧ s.mod = plain.mod.shrinkIf hoistedAside.touches := by
  intro calls s quiet plain
  have hplain : plain.Succeeds := by decide +kernel
  obtain ⟨hrecord, hspelling⟩ := session_switches {} hoistedAside (by decide) (by decide)
  obtain ⟨_, hmod, _, _, _, hevents⟩ := hrecord calls
  obtain ⟨_, hshrunk⟩ := hspelling hoistedAside.typeTokens (List.Perm.refl _)
  refine ⟨hplain, hmod, by decide +kernel, by decide +kernel, hevents, by decide +kernel,
    by decide +kernel, by decide +kernel, (hshrunk hplain).2.2.2.2⟩

end Recovery

end LocalRecovery
