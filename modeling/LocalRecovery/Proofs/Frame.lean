import LocalRecovery.Proofs.Handled
import LocalRecovery.Proofs.Settled

set_option autoImplicit false

/-! # What calls leave alone

A call of `process` works on the bodies of one type, a call of `finalize` on the fields of one type.
Of a body it may change the code and add variables behind the declared ones (`Body.Framed`), and
that only where the code accesses a candidate: the code of a body is respelled as a whole, but not
unless something in it was redirected or a variable was added. Everything else in the module stays
as it is, whatever the call returns and whatever the recovery has seen before.
-/

namespace LocalRecovery

/-- What a call may do to a body: change its instructions and add variables. It does nothing to a
body that accesses no candidate. -/
structure Body.Framed (candidates : List Candidate) (b b' : Body) : Prop where
  rest : b' = { b with locals := b'.locals, code := b'.code }
  declared : b.locals <+: b'.locals
  length_eq : b'.code.length = b.code.length
  idle : (∀ i ∈ b.code, i.candidate? candidates = none) → b' = b

/-- What a call may do to a method. -/
structure Method.Framed (candidates : List Candidate) (m m' : Method) : Prop where
  rest : m' = { m with body := m'.body }
  body : Option.Rel (Body.Framed candidates) m.body m'.body

theorem Body.framed_refl (candidates : List Candidate) (b : Body) : b.Framed candidates b :=
  ⟨rfl, List.prefix_refl b.locals, rfl, fun _ => rfl⟩

theorem Method.framed_refl (candidates : List Candidate) (m : Method) : m.Framed candidates m := by
  refine ⟨rfl, ?_⟩
  cases m.body with
  | none => exact Option.Rel.none
  | some b => exact Option.Rel.some (b.framed_refl candidates)

/-- A walk declares its variables behind those that are there. -/
theorem Walk.locals_prefix_run {config : RecoveryConfig} {candidates : List Candidate}
    {method : Token} (code : Code) (index : Nat) (w : Walk) :
    w.locals <+: (run config candidates method index code w).walk.locals := by
  refine run_preserves (P := fun v => w.locals <+: v.locals) code ?_ index
    (List.prefix_refl w.locals)
  intro _ i _ v move hs hv
  rcases step_cases hs with ⟨_, hl⟩ | ⟨c, _, _, _, _, hl⟩
  · rw [hl]
    exact hv
  · rw [hl]
    exact hv.trans (List.prefix_append v.locals _)

namespace Recovery

theorem framed_redirectBody (p : Recovery) (method : Token) (b : Body) :
    b.Framed (p.candidates.getD []) (p.redirectBody method b).part where
  rest := by
    unfold redirectBody
    simp only
    split
    · rfl
    · split_ifs <;> rfl
  declared := by
    rw [redirectBody_locals]
    exact Walk.locals_prefix_run b.code 0
      { bindings := p.bindings, locals := b.locals, redirects := p.redirects }
  length_eq := by
    have hwalk : (p.walk method b).code.length = b.code.length :=
      (Walk.handled_run b.code 0 _).length_eq.symm
    rcases p.redirectBody_code method b with hcode | hcode
    · rw [hcode, hwalk]
    · rw [hcode, Code.length_shrink, hwalk]
  idle h := (redirectBody_of_settled (Code.settled_of_none h p.bindings method)).2.1

theorem framed_redirectMethod (p : Recovery) (m : Method) :
    m.Framed (p.candidates.getD []) (p.redirectMethod m).part := by
  rcases m with ⟨token, name, _ | b⟩
  · exact ⟨rfl, Option.Rel.none⟩
  · exact ⟨rfl, Option.Rel.some (p.framed_redirectBody token b)⟩

/-- The methods behind an error are left alone. -/
theorem framed_redirectMethods (p : Recovery) (methods : List Method) :
    List.Forall₂ (Method.Framed (p.candidates.getD [])) methods
      (p.redirectMethods methods).part := by
  induction methods generalizing p with
  | nil => exact List.Forall₂.nil
  | cons m rest ih =>
      have hfirst := p.framed_redirectMethod m
      have hlater := ih (p.redirectMethod m).pass
      rw [(p.redirectMethod_pass m).2] at hlater
      unfold redirectMethods
      simp only
      split
      · exact List.Forall₂.cons hfirst (List.forall₂_same.mpr fun n _ => n.framed_refl _)
      · exact List.Forall₂.cons hfirst hlater

/-- The fields of the global type stay while types are processed. -/
theorem globalFields_process (p : Recovery) (mod : Module) (token : Token) :
    (p.process mod token).mod.globalFields = mod.globalFields := by
  rcases p.process_cases mod token with ⟨_, hmod⟩ | ⟨front, t, back, htypes, _, hmod⟩
  · rw [hmod]
  · unfold Module.globalFields Module.global?
    rw [hmod, htypes, List.find?_append, List.find?_append, List.find?_cons, List.find?_cons]
    -- the type with its new methods is global if it was
    show Option.getD (Option.map TypeDef.fields ((front.find? TypeDef.isGlobal).or
      (match t.isGlobal with | true => some _ | false => _))) [] = _
    cases front.find? TypeDef.isGlobal with
    | some u => rfl
    | none => cases t.isGlobal <;> rfl

/-- **The frame of the calls.** In any state and for any module, a call of `process` changes nothing
but the bodies of methods of the first type with the token, and nothing at all if there is no such
type. Such a body keeps its declared variables, with others behind them, the number of its
instructions and everything beside variables and code; it is left as it is unless one of its
instructions accesses a candidate. A call of `finalize` changes nothing but the fields of the first
global type, where it only removes some. -/
theorem call_frame (p : Recovery) (mod : Module) :
    (∀ token : Token,
      ((∀ t ∈ mod.types, t.token ≠ token) ∧ (p.process mod token).mod = mod) ∨
      ∃ front t back methods, mod.types = front ++ t :: back ∧ t.token = token ∧
        (∀ u ∈ front, u.token ≠ token) ∧
        (p.process mod token).mod = { mod with types := front ++ { t with methods } :: back } ∧
        List.Forall₂ (Method.Framed (p.candidatesIn mod)) t.methods methods) ∧
    (((∀ t ∈ mod.types, t.isGlobal = false) ∧ (p.finalize mod).mod = mod) ∨
      ∃ front t back fields, mod.types = front ++ t :: back ∧ t.isGlobal = true ∧
        (∀ u ∈ front, u.isGlobal = false) ∧ fields.Sublist t.fields ∧
        (p.finalize mod).mod = { mod with types := front ++ { t with fields } :: back }) := by
  constructor
  · intro token
    rcases forall_or_exists_first (fun t : TypeDef => t.token == token) mod.types with
      hnone | ⟨front, t, back, hmod, ht, hfront⟩
    · have hmissing : ∀ t ∈ mod.types, t.token ≠ token := fun t ht => by simpa using hnone t ht
      exact Or.inl ⟨hmissing, (process_missing hmissing).2.2⟩
    · right
      obtain rfl : t.token = token := by simpa using ht
      have hfirst : ∀ u ∈ front, u.token ≠ t.token := fun u hu => by simpa using hfront u hu
      have hmethods := (p.locate mod).1.framed_redirectMethods t.methods
      rw [locate_pass] at hmethods
      refine ⟨front, t, back, _, hmod, rfl, hfirst, (process_at hmod hfirst).2.2, ?_⟩
      rw [locate_pass]
      exact hmethods
  · rcases forall_or_exists_first TypeDef.isGlobal mod.types with
      hnone | ⟨front, t, back, hmod, ht, hfront⟩
    · exact Or.inl ⟨hnone, (finalize_idle (Or.inr hnone)).1⟩
    · right
      cases hremove : p.config.removeFields with
      | false =>
          refine ⟨front, t, back, t.fields, hmod, ht, hfront, List.Sublist.refl t.fields, ?_⟩
          rw [(finalize_idle (Or.inl hremove)).1, ← hmod]
      | true =>
          exact ⟨front, t, back, _, hmod, ht, hfront, List.filter_sublist,
            (finalize_at hremove hmod ht hfront).1⟩

end Recovery

end LocalRecovery
