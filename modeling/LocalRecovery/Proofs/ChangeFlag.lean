import LocalRecovery.Proofs.Switches

set_option autoImplicit false

/-! # Whether something changed

A walk notes a change where it declares a variable and where it redirects a static access, and the
note is what `process` returns. It is exact (`process_changed_iff`).

Without the note the code was settled to begin with (`settled_of_unchanged`), and in settled code
nothing is touched but the counter. With the note the body is another one, although its code may
have been respelled in the meantime: what redirecting leaves is settled, so if it left everything as
it was, the body was settled by the bindings at the end. Its variables are the same, too, so that no
binding was made (`bindings_eq_or_locals_lt`), and it was settled at the start. Then there would be
no note.
-/

namespace LocalRecovery

namespace Walk

variable {config : RecoveryConfig} {candidates : List Candidate} {method : Token}

/-- A step that notes no change finds its instruction settled. -/
theorem settled_of_step {index : Nat} {i : Instruction} {w : Walk} {move : Move}
    (h : step config candidates method index i w = .ok move)
    (hchanged : move.walk.changed = false) :
    i.Settled candidates w.bindings method ∧ move.walk.bindings = w.bindings := by
  cases hc : i.candidate? candidates with
  | none =>
      rw [step_of_none hc] at h
      cases h
      refine ⟨fun c hc' => ?_, rfl⟩
      rw [hc] at hc'
      cases hc'
  | some c =>
      obtain ⟨slot, w', created, hs, _, hwalk, _⟩ := step_ok_inv hc h
      rw [hwalk] at hchanged ⊢
      rcases slotFor_ok_inv hs with ⟨hf, rfl, _⟩ | ⟨_, _, _, rfl, _⟩
      · refine ⟨fun d hd => ?_, rfl⟩
        obtain rfl : c = d := Option.some.inj (hc.symm.trans hd)
        simp only [Bool.or_eq_false_iff, Option.isSome_eq_false_iff, Option.isNone_iff_eq_none]
          at hchanged
        exact ⟨hchanged.2, slot, hf⟩
      · -- a variable was declared, and that is a change
        cases hchanged

/-- A walk that notes no change has found settled code. -/
theorem settled_of_unchanged (code : Code) (index : Nat) (w : Walk)
    (hok : (run config candidates method index code w).error = none)
    (h : (run config candidates method index code w).walk.changed = false) :
    code.Settled candidates w.bindings method := by
  induction code generalizing index w with
  | nil =>
      intro i hi
      cases hi
  | cons i rest ih =>
      cases hs : step config candidates method index i w with
      | error e =>
          rw [run_cons_of_error hs] at hok
          cases hok
      | ok move =>
          rw [run_cons_of_ok hs] at hok h
          -- had this step noted a change, the note would still be there
          have hstep : move.walk.changed = false := by
            by_contra hnoted
            rw [Bool.not_eq_false] at hnoted
            exact Bool.false_ne_true
              (h.symm.trans (changed_run_of_changed rest (index + 1) hnoted))
          obtain ⟨hi, hbindings⟩ := settled_of_step hs hstep
          have hrest := ih (index + 1) move.walk hok h
          rw [hbindings] at hrest
          intro j hj
          rcases List.mem_cons.mp hj with rfl | hj
          · exact hi
          · exact hrest j hj

/-- A walk that makes a binding declares a variable. -/
theorem bindings_eq_or_locals_lt (code : Code) (index : Nat) (w : Walk) :
    (run config candidates method index code w).walk.bindings = w.bindings ∨
      w.locals.length < (run config candidates method index code w).walk.locals.length := by
  let stop := (run config candidates method index code w).walk
  suffices hrun : (stop.bindings = w.bindings ∧ stop.locals = w.locals) ∨
      w.locals.length < stop.locals.length from hrun.imp_left And.left
  refine run_preserves (P := fun v => (v.bindings = w.bindings ∧ v.locals = w.locals) ∨
    w.locals.length < v.locals.length) code ?_ index (Or.inl ⟨rfl, rfl⟩)
  intro _ i _ v move hs hv
  rcases step_cases hs with ⟨hb, hl⟩ | ⟨c, _, _, _, _, hl⟩
  · rw [hb, hl]
    exact hv
  · right
    have hlonger : move.walk.locals.length = v.locals.length + 1 := by
      rw [hl]
      exact List.length_append
    rcases hv with ⟨_, hlocals⟩ | hlt
    · rw [hlonger, hlocals]
      exact Nat.lt_succ_self _
    · omega

end Walk

namespace Recovery

/-- Redirecting in a body says that it changed something exactly if the body is another one. -/
theorem redirectBody_changed_iff {p : Recovery} {method : Token} {b : Body} {changed : Bool}
    (h : (p.redirectBody method b).result = .ok changed) :
    changed = true ↔ (p.redirectBody method b).part ≠ b := by
  constructor
  · rintro rfl hsame
    -- the body is settled by the bindings at the end
    have hafter : b.code.Settled (p.candidates.getD []) (p.redirectBody method b).pass.bindings
        method := by
      intro i hi
      have hmeans := means_redirectBody h
      rw [hsame, List.forall₂_map_right_iff] at hmeans
      obtain ⟨_, _, hmeans⟩ := exists_of_forall₂_right hmeans hi
      exact hmeans.settled
    -- and these are the bindings at the start
    have hbindings : (p.redirectBody method b).pass.bindings = p.bindings := by
      have hlocals := p.redirectBody_locals method b
      rw [hsame] at hlocals
      rw [redirectBody_pass]
      refine (Walk.bindings_eq_or_locals_lt b.code 0 _).resolve_right fun hlt => ?_
      exact Nat.lt_irrefl _ (hlt.trans_eq (congrArg List.length hlocals).symm)
    rw [hbindings] at hafter
    rw [(redirectBody_of_settled hafter).1] at h
    cases h
  · intro hother
    by_contra hchanged
    rw [Bool.not_eq_true] at hchanged
    obtain ⟨hok, _⟩ := redirectBody_ok_inv h
    rw [(redirectBody_of_none hok).1, hchanged] at h
    have hsettled := Walk.settled_of_unchanged b.code 0 _ hok (Except.ok.inj h)
    exact hother (redirectBody_of_settled hsettled).2.1

theorem redirectMethod_changed_iff {p : Recovery} {m : Method} {changed : Bool}
    (h : (p.redirectMethod m).result = .ok changed) :
    changed = true ↔ (p.redirectMethod m).part ≠ m := by
  rcases m with ⟨token, name, _ | b⟩
  · cases h
    simp [redirectMethod]
  · rw [redirectBody_changed_iff (p := p) (b := b) h]
    simp [redirectMethod]

theorem redirectMethods_changed_iff {methods : List Method} {p : Recovery} {changed : Bool}
    (h : (p.redirectMethods methods).result = .ok changed) :
    changed = true ↔ (p.redirectMethods methods).part ≠ methods := by
  induction methods generalizing p changed with
  | nil =>
      cases h
      simp [redirectMethods]
  | cons m rest ih =>
      obtain ⟨⟨first, hfirst⟩, ⟨later, hlater⟩, _⟩ := redirectMethods_ok_inv h
      rw [redirectMethods_cons_of_ok hfirst] at h ⊢
      rw [hlater] at h
      cases h
      rw [Bool.or_eq_true, redirectMethod_changed_iff hfirst, ih hlater, ← not_and_or]
      simp only [ne_eq, List.cons.injEq]

/-- **The result of a call says exactly whether it changed the module.** In any state, for any
module and any token: if `process` succeeds, it returns `true` if the module is another one
afterwards, and `false` if it is the same. -/
theorem process_changed_iff (p : Recovery) (mod : Module) (token : Token) (changed : Bool)
    (h : (p.process mod token).result = .ok changed) :
    changed = true ↔ (p.process mod token).mod ≠ mod := by
  rcases forall_or_exists_first (fun t : TypeDef => t.token == token) mod.types with
    hnone | ⟨front, t, back, hmod, ht, hfront⟩
  · rw [(process_missing fun t ht => by simpa using hnone t ht).1] at h
    cases h
  · obtain rfl : t.token = token := by simpa using ht
    obtain ⟨hresult, _, hafter⟩ :=
      process_at (p := p) hmod fun u hu => by simpa using hfront u hu
    rw [redirectMethods_changed_iff (hresult.symm.trans h), hafter]
    refine not_congr ⟨fun hmethods => ?_, fun hsame => ?_⟩
    · rw [hmethods, ← hmod]
    · have htypes := (congrArg Module.types hsame).trans hmod
      have htype := (List.cons.inj (List.append_cancel_left htypes)).1
      exact congrArg TypeDef.methods htype

/-- The first call changes the module. The second one leaves it as it is, though it comes across an
access through an object once more and counts it. -/
theorem process_changed_iff_hoistedCounter :
    let first := process {} hoistedCounter ⟨0x02000002⟩
    let second := first.pass.process first.mod ⟨0x02000002⟩
    first.result = .ok true ∧ first.mod ≠ hoistedCounter ∧
      second.result = .ok false ∧ second.mod = first.mod ∧
      second.pass.redirects = first.pass.redirects + 1 := by
  intro first second
  have hfirst : first.result = .ok true := by decide +kernel
  have hsecond : second.result = .ok false := by decide +kernel
  refine ⟨hfirst, (process_changed_iff _ _ _ _ hfirst).mp rfl, hsecond, ?_, by decide +kernel⟩
  by_contra hother
  cases (process_changed_iff _ _ _ _ hsecond).mpr hother

end Recovery

end LocalRecovery
