import LocalRecovery.Proofs.Session

set_option autoImplicit false

/-! # What becomes of each instruction

After a full run every instruction stands where it stood before. An access to a candidate has become
the same access to the variable that the candidate is bound to in this method, in whichever
spelling; every other instruction means what it meant.

The argument goes from the walk through one body to methods, types and the session. At each level the
bindings have grown since, which changes nothing: an instruction that was redirected by some bindings
is right by all later ones (`Redirected.mono`).
-/

namespace LocalRecovery

theorem Instruction.eq_of_fieldToken? {i : Instruction} {field : Token}
    (h : i.fieldToken? = some field) :
    ∃ storage kind, i = ⟨.field storage kind, .token field⟩ := by
  rcases i with ⟨opcode, operand⟩
  unfold fieldToken? at h
  split at h
  · rename_i storage kind token hop hod
    cases h
    exact ⟨storage, kind, congrArg₂ Instruction.mk hop hod⟩
  · cases h

theorem Instruction.eq_of_staticAccess? {i : Instruction} {kind : AccessKind} {field : Token}
    (hkind : i.opcode.staticAccess? = some kind) (hfield : i.fieldToken? = some field) :
    i = ⟨.field .static kind, .token field⟩ := by
  obtain ⟨storage, kind', rfl⟩ := eq_of_fieldToken? hfield
  cases storage with
  | static =>
      cases hkind
      rfl
  | object => cases hkind

namespace Walk

theorem Redirected.mono {candidates : List Candidate} {before after : List Binding}
    {method : Token} {i i' : Instruction} (h : Redirected candidates before method i i')
    (hext : Binding.Extends after before) : Redirected candidates after method i i' := by
  unfold Redirected at h ⊢
  split at h
  · exact h
  · obtain ⟨slot, hslot, hi⟩ := h
    exact ⟨slot, hext _ _ _ hslot, hi⟩

/-- The meaning is that of what the instruction is redirected to. -/
def Means (candidates : List Candidate) (bindings : List Binding) (method : Token)
    (i : Instruction) (meaning : Meaning) : Prop :=
  ∃ i', Redirected candidates bindings method i i' ∧ i'.meaning = meaning

variable {candidates : List Candidate} {bindings : List Binding} {method : Token}

/-- A static access to a candidate comes to mean the same access to a variable. -/
theorem Means.of_static {kind : AccessKind} {field : Token} {meaning : Meaning}
    (hc : (Candidate.find? candidates field).isSome = true)
    (h : Means candidates bindings method ⟨.field .static kind, .token field⟩ meaning) :
    ∃ slot, Binding.find? bindings field method = some slot ∧
      meaning = .slot ⟨.locals, kind⟩ slot := by
  obtain ⟨i', hi, rfl⟩ := h
  obtain ⟨c, hfind⟩ := Option.isSome_iff_exists.mp hc
  have hcandidate :
      Instruction.candidate? candidates ⟨.field .static kind, .token field⟩ = some c := hfind
  unfold Redirected at hi
  rw [hcandidate] at hi
  obtain ⟨slot, hslot, rfl⟩ := hi
  rw [Candidate.token_of_find? hfind] at hslot
  exact ⟨slot, hslot, rfl⟩

/-- Any other instruction keeps its meaning, accesses to a candidate through an object included. -/
theorem Means.of_other {i : Instruction} {meaning : Meaning}
    (hother : ∀ (kind : AccessKind) (field : Token), i = ⟨.field .static kind, .token field⟩ →
      ¬ (Candidate.find? candidates field).isSome = true)
    (h : Means candidates bindings method i meaning) : meaning = i.meaning := by
  obtain ⟨i', hi, rfl⟩ := h
  unfold Redirected at hi
  cases hc : i.candidate? candidates with
  | none =>
      rw [hc] at hi
      rw [hi]
  | some c =>
      rw [hc] at hi
      obtain ⟨slot, _, rfl⟩ := hi
      obtain ⟨hfield, hfind⟩ := Instruction.find?_of_candidate? hc
      unfold Instruction.redirectedTo
      split
      · rfl
      · -- a static access would be one to the candidate
        rename_i kind hkind
        exact absurd (by rw [hfind]; rfl)
          (hother kind c.token (Instruction.eq_of_staticAccess? hkind hfield))

end Walk

/-! ## Methods -/

/-- The code of `m'` means what the code of `m` is redirected to, instruction by instruction. -/
def Method.Recovered (candidates : List Candidate) (bindings : List Binding) (m m' : Method) :
    Prop :=
  m'.token = m.token ∧
    Option.Rel
      (fun b b' : Body => List.Forall₂ (Walk.Means candidates bindings m.token) b.code
        (b'.code.map Instruction.meaning))
      m.body m'.body

theorem Method.Recovered.mono {candidates : List Candidate} {before after : List Binding}
    {m m' : Method} (h : m.Recovered candidates before m')
    (hext : Binding.Extends after before) : m.Recovered candidates after m' := by
  refine ⟨h.1, rel_imp (fun b b' hcode => hcode.imp ?_) h.2⟩
  rintro i meaning ⟨i', hi, hmeaning⟩
  exact ⟨i', hi.mono hext, hmeaning⟩

namespace Recovery

/-- The code of a body in which redirecting succeeds. -/
theorem means_redirectBody {p : Recovery} {method : Token} {b : Body} {changed : Bool}
    (h : (p.redirectBody method b).result = .ok changed) :
    List.Forall₂
      (Walk.Means (p.candidates.getD []) (p.redirectBody method b).pass.bindings method) b.code
      ((p.redirectBody method b).part.code.map Instruction.meaning) := by
  obtain ⟨herror, hmeaning⟩ := redirectBody_ok_inv h
  rw [hmeaning, List.forall₂_map_right_iff, redirectBody_pass]
  exact (Walk.redirected_run b.code 0 _ herror).imp fun i i' hi => ⟨i', hi, rfl⟩

theorem recovered_redirectMethod {p : Recovery} {m : Method} {changed : Bool}
    (h : (p.redirectMethod m).result = .ok changed) :
    m.Recovered (p.candidates.getD []) (p.redirectMethod m).pass.bindings
      (p.redirectMethod m).part := by
  rcases m with ⟨token, name, _ | b⟩
  · exact ⟨rfl, Option.Rel.none⟩
  · exact ⟨rfl, Option.Rel.some (means_redirectBody (p := p) (b := b) h)⟩

theorem recovered_redirectMethods {methods : List Method} {p : Recovery} {changed : Bool}
    (h : (p.redirectMethods methods).result = .ok changed) :
    List.Forall₂ (Method.Recovered (p.candidates.getD []) (p.redirectMethods methods).pass.bindings)
      methods (p.redirectMethods methods).part := by
  induction methods generalizing p changed with
  | nil => exact List.Forall₂.nil
  | cons m rest ih =>
      obtain ⟨⟨_, hfirst⟩, ⟨_, hrest⟩, hpass, hpart, _⟩ := redirectMethods_ok_inv h
      have hext := extends_redirectMethods (p.redirectMethod m).pass rest
      have hlater := ih hrest
      rw [(p.redirectMethod_pass m).2] at hlater
      rw [hpass, hpart]
      exact List.Forall₂.cons ((recovered_redirectMethod hfirst).mono hext) hlater

end Recovery

/-! ## Types and sessions -/

/-- The methods of `t'` are those of `t`, recovered. -/
def TypeDef.Recovered (candidates : List Candidate) (bindings : List Binding) (t t' : TypeDef) :
    Prop :=
  List.Forall₂ (Method.Recovered candidates bindings) t.methods t'.methods

theorem TypeDef.Recovered.mono {candidates : List Candidate} {before after : List Binding}
    {t t' : TypeDef} (h : t.Recovered candidates before t')
    (hext : Binding.Extends after before) : t.Recovered candidates after t' :=
  List.Forall₂.imp (fun _ _ hm => hm.mono hext) h

namespace Recovery

/-- A call knows the candidates, whether it finds the type or not. -/
theorem process_candidates (p : Recovery) (mod : Module) (token : Token) :
    (p.process mod token).pass.candidates = some (p.candidatesIn mod) := by
  rcases p.process_cases mod token with ⟨hpass, _⟩ | ⟨_, t, _, _, hpass, _⟩
  · rw [hpass, locate_pass]
  · rw [hpass, (redirectMethods_pass _ _).2, locate_pass]

theorem candidatesIn_process (p : Recovery) (mod : Module) (token : Token) (mod' : Module) :
    (p.process mod token).pass.candidatesIn mod' = p.candidatesIn mod := by
  unfold candidatesIn
  rw [process_candidates]
  rfl

/-- So do sessions in which there was a call. -/
theorem session_candidates {tokens : List Token} (h : tokens ≠ []) (p : Recovery) (mod : Module) :
    (p.session mod (tokens.map .process)).pass.candidates = some (p.candidatesIn mod) := by
  induction tokens generalizing p mod with
  | nil => exact absurd rfl h
  | cons token rest ih =>
      cases rest with
      | nil => exact p.process_candidates mod token
      | cons next rest =>
          have hlater := ih (List.cons_ne_nil next rest) (p.process mod token).pass
            (p.process mod token).mod
          rw [candidatesIn_process] at hlater
          exact hlater

/-- Processing the types from some place on, each once. The types in front of that place stay. -/
theorem recovered_session (types : List TypeDef) (p : Recovery) (mod : Module)
    (front : List TypeDef) (hmod : mod.types = front ++ types) (hnodup : mod.typeTokens.Nodup)
    (hok : (p.session mod (types.map fun t => .process t.token)).Succeeds) :
    let s := p.session mod (types.map fun t => .process t.token)
    Binding.Extends s.pass.bindings p.bindings ∧
      ∃ types', s.mod.types = front ++ types' ∧
        List.Forall₂ (TypeDef.Recovered (p.candidatesIn mod) s.pass.bindings) types types' := by
  induction types generalizing p mod front with
  | nil => exact ⟨Binding.Extends.refl p.bindings, [], hmod, List.Forall₂.nil⟩
  | cons t rest ih =>
      obtain ⟨hresult, hpass, _, htypes₁, hnodup₁⟩ := process_next (p := p) hmod hnodup
      have hext := extends_redirectMethods (p.locate mod).1 t.methods
      -- the first call, on `t`
      obtain ⟨changed, hchanged⟩ := hok _ List.mem_cons_self
      have hfirst : t.Recovered (p.candidatesIn mod) (p.process mod t.token).pass.bindings
          { t with methods := ((p.locate mod).1.redirectMethods t.methods).part } := by
        have h := recovered_redirectMethods (hresult.symm.trans hchanged)
        rw [locate_pass] at h
        rw [hpass, locate_pass]
        exact h
      -- the others, on the module that it leaves
      obtain ⟨hlater, types', htypes', hrest⟩ :=
        ih (p.process mod t.token).pass (p.process mod t.token).mod _ htypes₁ hnodup₁
          fun r hr => hok r (List.mem_cons_of_mem _ hr)
      rw [candidatesIn_process] at hrest
      refine ⟨hlater.trans ?_, _ :: types', ?_, List.Forall₂.cons (hfirst.mono hlater) hrest⟩
      · rw [hpass]
        rw [locate_pass] at hext ⊢
        exact hext
      · rw [List.append_assoc, List.singleton_append] at htypes'
        exact htypes'

theorem recovered_methods {candidates : List Candidate} {bindings : List Binding}
    {types types' : List TypeDef}
    (h : List.Forall₂ (TypeDef.Recovered candidates bindings) types types') :
    List.Forall₂ (Method.Recovered candidates bindings) (types.flatMap TypeDef.methods)
      (types'.flatMap TypeDef.methods) := by
  induction h with
  | nil => exact List.Forall₂.nil
  | cons ht _ ih =>
      rw [List.flatMap_cons, List.flatMap_cons]
      exact List.rel_append ht ih

/-- The methods of the module at the end of a full run that succeeds. -/
theorem recovered_fullRun {config : RecoveryConfig} {mod : Module}
    (htypes : mod.typeTokens.Nodup)
    (hok : (session { config } mod (fullRun mod)).Succeeds) :
    List.Forall₂
      (Method.Recovered (Candidate.collect mod.globalFields)
        (session { config } mod (fullRun mod)).pass.bindings)
      mod.methods (session { config } mod (fullRun mod)).mod.methods := by
  have hcalls : mod.typeTokens.map Call.process = mod.types.map fun t => .process t.token := by
    unfold Module.typeTokens
    rw [List.map_map]
    rfl
  unfold fullRun at hok ⊢
  rw [hcalls] at hok ⊢
  obtain ⟨hpass, hmod, hresults⟩ :=
    session_append { config } mod (mod.types.map fun t => .process t.token) [.finalize]
  obtain ⟨_, types', htypes', hrecovered⟩ :=
    recovered_session mod.types { config } mod [] rfl htypes fun r hr =>
      hok r (by rw [hresults]; exact List.mem_append_left _ hr)
  rw [hpass, hmod]
  show List.Forall₂ (Method.Recovered _ (finalize _ _).pass.bindings) _ (finalize _ _).mod.methods
  rw [finalize_methods, (finalize_cases _ _).1]
  unfold Module.methods
  rw [htypes']
  exact recovered_methods hrecovered

/-- **The correspondence of a full run.** If every call succeeds, the methods and their bodies are
the same ones in the same order, and every body keeps its number of instructions. An access to a
static field that is a candidate has become the same access to the variable that the field is bound
to in the method; every other instruction means what it meant before. The candidates are the
eligible fields of the global type at the beginning. -/
theorem session_correspondence (config : RecoveryConfig) (mod : Module)
    (htypes : mod.typeTokens.Nodup)
    (hok : (session { config } mod (fullRun mod)).Succeeds) :
    let s := session { config } mod (fullRun mod)
    s.mod.methods.length = mod.methods.length ∧
    ∀ (k : Nat) (m m' : Method), mod.methods[k]? = some m → s.mod.methods[k]? = some m' →
      m'.token = m.token ∧ m'.body.isSome = m.body.isSome ∧
      ∀ b b' : Body, m.body = some b → m'.body = some b' →
        b'.code.length = b.code.length ∧
        ∀ (index : Nat) (i i' : Instruction),
          b.code[index]? = some i → b'.code[index]? = some i' →
          (∀ (kind : AccessKind) (field : Token),
            i = ⟨.field .static kind, .token field⟩ → mod.IsCandidate field →
            ∃ slot, s.pass.binding? field m.token = some slot ∧
              i'.slotAccess? = some (⟨.locals, kind⟩, slot) ∧ i'.localIndex? = some slot) ∧
          ((∀ (kind : AccessKind) (field : Token),
            i = ⟨.field .static kind, .token field⟩ → ¬ mod.IsCandidate field) →
            i'.meaning = i.meaning) := by
  intro s
  have hmethods := recovered_fullRun htypes hok
  refine ⟨hmethods.length_eq.symm, ?_⟩
  intro k m m' hm hm'
  obtain ⟨htoken, hbody⟩ := forall₂_getElem? hmethods hm hm'
  refine ⟨htoken, isSome_eq_of_rel hbody, ?_⟩
  intro b b' hb hb'
  rw [hb, hb'] at hbody
  obtain ⟨hcode⟩ := hbody
  rw [List.forall₂_map_right_iff] at hcode
  refine ⟨hcode.length_eq.symm, ?_⟩
  intro index i i' hi hi'
  have hmeans := forall₂_getElem? hcode hi hi'
  constructor
  · rintro kind field rfl hcandidate
    have hc := (Candidate.isSome_find?_collect_iff _ _).mpr hcandidate
    obtain ⟨slot, hslot, hmeaning⟩ := hmeans.of_static hc
    have haccess := Instruction.slotAccess?_of_meaning hmeaning
    exact ⟨slot, hslot, haccess, Instruction.localIndex?_of_slotAccess? haccess⟩
  · intro hother
    exact hmeans.of_other fun kind field hi hc =>
      hother kind field hi ((Candidate.isSome_find?_collect_iff _ _).mp hc)

theorem session_correspondence_hoistedCounter :
    let s := session {} hoistedCounter (fullRun hoistedCounter)
    hoistedCounter.typeTokens.Nodup ∧ s.Succeeds ∧ hoistedCounter.IsCandidate ⟨0x04000001⟩ ∧
      ∃ m' b' i', s.mod.methods[0]? = some m' ∧ m'.body = some b' ∧ b'.code[1]? = some i' ∧
        ∃ slot, s.pass.binding? ⟨0x04000001⟩ ⟨0x06000001⟩ = some slot ∧
          i'.slotAccess? = some (⟨.locals, .write⟩, slot) ∧ i'.localIndex? = some slot := by
  intro s
  have htypes : hoistedCounter.typeTokens.Nodup := by decide
  have hok : s.Succeeds := by decide +kernel
  have hcandidate : hoistedCounter.IsCandidate ⟨0x04000001⟩ :=
    ⟨_, List.mem_cons_self, by decide, rfl⟩
  refine ⟨htypes, hok, hcandidate, ?_⟩
  obtain ⟨hlength, hmethods⟩ := session_correspondence {} hoistedCounter htypes hok
  have hk : 0 < s.mod.methods.length := by rw [hlength]; decide
  obtain ⟨_, hbody, hcode⟩ := hmethods 0 _ _ rfl (List.getElem?_eq_getElem hk)
  obtain ⟨b', hb'⟩ := Option.isSome_iff_exists.mp (hbody.trans rfl)
  obtain ⟨hcount, hat⟩ := hcode _ b' rfl hb'
  have h1 : 1 < b'.code.length := by rw [hcount]; decide
  refine ⟨_, b', _, List.getElem?_eq_getElem hk, hb', List.getElem?_eq_getElem h1, ?_⟩
  exact (hat 1 _ _ rfl (List.getElem?_eq_getElem h1)).1 .write _ rfl hcandidate

end Recovery

end LocalRecovery
