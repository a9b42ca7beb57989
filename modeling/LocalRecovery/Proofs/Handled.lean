import LocalRecovery.Proofs.Correspondence

set_option autoImplicit false

/-! # What a call leaves of the code

A walk can break off half way, and a call of `process` with it. The code in front of that place is
new, the code behind it is old, and nothing has been respelled yet. What holds of every call,
whatever it returns, is therefore said here apart from what holds of the calls that succeed: an
instruction stays as it is, or it is a static access to a candidate and becomes the same access to
the variable that the candidate is bound to (`Walk.Handled`). The code may have been shrunk
afterwards (`Body.Handled`), and of a type only the methods change (`TypeDef.Handled`).

`process_handled` says this of a call. What calls that may fail do to the sizes of bodies and to the
references to fields is read off it.
-/

namespace LocalRecovery

/-! ## Instructions -/

namespace Walk

/-- What becomes of an instruction in a walk that may break off. -/
inductive Handled (candidates : List Candidate) (bindings : List Binding) (method : Token) :
    Instruction → Instruction → Prop where
  | kept (i : Instruction) : Handled candidates bindings method i i
  | redirected {kind : AccessKind} {field : Token} {slot : UInt16}
      (candidate : (Candidate.find? candidates field).isSome = true)
      (bound : Binding.find? bindings field method = some slot) :
      Handled candidates bindings method ⟨.field .static kind, .token field⟩
        ⟨Opcode.localAccess kind, .localSlot slot⟩

theorem Handled.mono {candidates : List Candidate} {before after : List Binding} {method : Token}
    {i i' : Instruction} (h : Handled candidates before method i i')
    (hext : Binding.Extends after before) : Handled candidates after method i i' := by
  cases h with
  | kept => exact .kept i
  | redirected hc hb => exact .redirected hc (hext _ _ _ hb)

variable {config : RecoveryConfig} {candidates : List Candidate} {bindings : List Binding}
  {method : Token}

/-- The counterpart of an instruction differs from it only if the access is static. -/
theorem handled_of_redirected {i i' : Instruction}
    (h : Redirected candidates bindings method i i') :
    Handled candidates bindings method i i' := by
  unfold Redirected at h
  cases hc : i.candidate? candidates with
  | none =>
      rw [hc] at h
      rw [h]
      exact .kept i
  | some c =>
      rw [hc] at h
      obtain ⟨slot, hslot, rfl⟩ := h
      obtain ⟨hfield, hfind⟩ := Instruction.find?_of_candidate? hc
      unfold Instruction.redirectedTo
      cases hkind : i.opcode.staticAccess? with
      | none => exact .kept i
      | some kind =>
          rw [Instruction.eq_of_staticAccess? hkind hfield]
          exact .redirected (by rw [hfind]; rfl) hslot

/-- A walk handles every instruction. Behind the place where it breaks off all are kept. -/
theorem handled_run (code : Code) (index : Nat) (w : Walk) :
    List.Forall₂
      (Handled candidates (run config candidates method index code w).walk.bindings method)
      code (run config candidates method index code w).code := by
  induction code generalizing index w with
  | nil => exact List.Forall₂.nil
  | cons i rest ih =>
      unfold run
      cases hs : step config candidates method index i w with
      | error e => exact List.forall₂_same.mpr fun j _ => .kept j
      | ok move =>
          refine List.Forall₂.cons (handled_of_redirected ?_) (ih (index + 1) move.walk)
          exact redirected_of_step hs (extends_run rest (index + 1) move.walk)

end Walk

/-! ## Bodies and methods -/

/-- Each instruction was handled, and the code may have been shrunk afterwards. -/
def Body.Handled (candidates : List Candidate) (bindings : List Binding) (method : Token)
    (b b' : Body) : Prop :=
  ∃ code : Code, List.Forall₂ (Walk.Handled candidates bindings method) b.code code ∧
    (b'.code = code ∨ b'.code = code.shrink)

/-- A method keeps its name, and whether it has a body. -/
def Method.Handled (candidates : List Candidate) (bindings : List Binding) (m m' : Method) : Prop :=
  m' = { m with body := m'.body } ∧
    Option.Rel (Body.Handled candidates bindings m.token) m.body m'.body

/-- A type keeps everything but its methods. -/
def TypeDef.Handled (candidates : List Candidate) (bindings : List Binding) (t t' : TypeDef) :
    Prop :=
  t' = { t with methods := t'.methods } ∧
    List.Forall₂ (Method.Handled candidates bindings) t.methods t'.methods

section

variable {candidates : List Candidate} {before after : List Binding}

theorem Body.handled_refl (candidates : List Candidate) (bindings : List Binding) (method : Token)
    (b : Body) : b.Handled candidates bindings method b :=
  ⟨b.code, List.forall₂_same.mpr fun i _ => .kept i, Or.inl rfl⟩

theorem Method.handled_refl (candidates : List Candidate) (bindings : List Binding) (m : Method) :
    m.Handled candidates bindings m := by
  refine ⟨rfl, ?_⟩
  cases m.body with
  | none => exact Option.Rel.none
  | some b => exact Option.Rel.some (b.handled_refl candidates bindings m.token)

theorem TypeDef.handled_refl (candidates : List Candidate) (bindings : List Binding)
    (t : TypeDef) : t.Handled candidates bindings t :=
  ⟨rfl, List.forall₂_same.mpr fun m _ => m.handled_refl candidates bindings⟩

theorem Method.Handled.mono {m m' : Method} (h : m.Handled candidates before m')
    (hext : Binding.Extends after before) : m.Handled candidates after m' := by
  refine ⟨h.1, rel_imp ?_ h.2⟩
  rintro b b' ⟨code, hcode, hspelling⟩
  exact ⟨code, hcode.imp fun _ _ hi => hi.mono hext, hspelling⟩

end

namespace Recovery

/-- The code that the walk leaves, or its shortest spelling. -/
theorem redirectBody_code (p : Recovery) (method : Token) (b : Body) :
    (p.redirectBody method b).part.code = (p.walk method b).code ∨
      (p.redirectBody method b).part.code = (p.walk method b).code.shrink := by
  unfold redirectBody walk
  simp only
  split
  · exact Or.inl rfl
  · split_ifs
    · exact Or.inr rfl
    · exact Or.inl rfl

theorem handled_redirectMethod (p : Recovery) (m : Method) :
    m.Handled (p.candidates.getD []) (p.redirectMethod m).pass.bindings
      (p.redirectMethod m).part := by
  rcases m with ⟨token, name, _ | b⟩
  · exact ⟨rfl, Option.Rel.none⟩
  · refine ⟨rfl, Option.Rel.some ⟨(p.walk token b).code, ?_, p.redirectBody_code token b⟩⟩
    show List.Forall₂ (Walk.Handled _ (p.redirectBody token b).pass.bindings _) _ _
    rw [redirectBody_pass]
    exact Walk.handled_run b.code 0 _

/-- The methods behind an error are kept. -/
theorem handled_redirectMethods (p : Recovery) (methods : List Method) :
    List.Forall₂ (Method.Handled (p.candidates.getD []) (p.redirectMethods methods).pass.bindings)
      methods (p.redirectMethods methods).part := by
  induction methods generalizing p with
  | nil => exact List.Forall₂.nil
  | cons m rest ih =>
      have hfirst := p.handled_redirectMethod m
      have hlater := ih (p.redirectMethod m).pass
      have hext := extends_redirectMethods (p.redirectMethod m).pass rest
      rw [(p.redirectMethod_pass m).2] at hlater
      unfold redirectMethods
      simp only
      split
      · exact List.Forall₂.cons hfirst (List.forall₂_same.mpr fun n _ => n.handled_refl _ _)
      · exact List.Forall₂.cons (hfirst.mono hext) hlater

/-! ## Calls -/

/-- **What a call of `process` leaves**, whether it succeeds or not. -/
theorem process_handled (p : Recovery) (mod : Module) (token : Token) :
    List.Forall₂
      (TypeDef.Handled (p.candidatesIn mod) (p.process mod token).pass.bindings)
      mod.types (p.process mod token).mod.types := by
  have hkept : ∀ types : List TypeDef, List.Forall₂
      (TypeDef.Handled (p.candidatesIn mod) (p.process mod token).pass.bindings) types types :=
    fun types => List.forall₂_same.mpr fun t _ => t.handled_refl _ _
  rcases p.process_cases mod token with ⟨_, hmod⟩ | ⟨front, t, back, htypes, hpass, hmod⟩
  · rw [hmod]
    exact hkept mod.types
  · have hmethods := (p.locate mod).1.handled_redirectMethods t.methods
    rw [hmod, htypes]
    refine List.rel_append (hkept front) (List.Forall₂.cons ⟨rfl, ?_⟩ (hkept back))
    rw [hpass]
    rw [locate_pass] at hmethods ⊢
    exact hmethods

/-- The same of the methods of the module. -/
theorem process_handled_methods (p : Recovery) (mod : Module) (token : Token) :
    List.Forall₂
      (Method.Handled (p.candidatesIn mod) (p.process mod token).pass.bindings)
      mod.methods (p.process mod token).mod.methods :=
  List.rel_flatMap (p.process_handled mod token) fun _ _ ht => ht.2

end Recovery

/-- Two global fields. A method stores into one of them, loads it, takes its token and goes back by
a short branch; nothing accesses the other. -/
def hoistedLoop : Module :=
  { name := "loop"
    types :=
      [ { token := ⟨0x02000001⟩, space := "", name := TypeDef.globalName
          fields :=
            [ { token := ⟨0x04000001⟩, name := "index", flags := ⟨0x16⟩
                signature := .primitive .int32 },
              { token := ⟨0x04000002⟩, name := "spare", flags := ⟨0x16⟩
                signature := .primitive .int32 } ] },
        { token := ⟨0x02000002⟩, space := "", name := "Program"
          methods :=
            [ { token := ⟨0x06000001⟩, name := "Main"
                body := some
                  { code :=
                      [ ⟨.field .static .write, .token ⟨0x04000001⟩⟩,
                        ⟨.field .static .read, .token ⟨0x04000001⟩⟩,
                        ⟨.loadToken, .token ⟨0x04000001⟩⟩,
                        ⟨.branch .ifTrue .short, .target 0⟩ ] } } ] } ] }

end LocalRecovery
