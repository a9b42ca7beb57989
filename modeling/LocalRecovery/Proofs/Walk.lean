import LocalRecovery.Proofs.Shrink
import LocalRecovery.Recovery.Redirect

set_option autoImplicit false

/-! # What a walk does

One step of a walk is described once and for all: an instruction that accesses no candidate stays
(`step_of_none`), any other one is bound to a local variable and redirected to it
(`step_ok_inv`), and the only failure is a body without room for one more variable. Whatever each
step keeps, a walk keeps (`run_preserves`), also one that breaks off.

Bindings are looked up by field and method. They only ever grow, and a lookup that succeeded gives
the same slot for ever (`extends_run`); lookups for other methods do not change at all
(`find?_run_of_ne`). A walk that does not break off turns each instruction into its counterpart
under the bindings at the end (`redirected_run`).
-/

namespace LocalRecovery

/-! ## Lookups -/

namespace Binding

theorem find?_cons (b : Binding) (bindings : List Binding) (field method : Token) :
    find? (b :: bindings) field method
      = if b.field = field ∧ b.method = method then some b.slot
        else find? bindings field method := by
  unfold find?
  rw [List.find?_cons]
  by_cases h : b.field = field ∧ b.method = method
  · simp [h]
  · rw [if_neg h]
    have hb : (b.field == field && b.method == method) = false := by
      simpa [Bool.and_eq_false_iff, ← not_and_or] using h
    rw [hb]

/-- Whatever is bound in `before` is bound to the same slot in `after`. -/
def Extends (after before : List Binding) : Prop :=
  ∀ (field method : Token) (slot : UInt16),
    find? before field method = some slot → find? after field method = some slot

theorem Extends.refl (bindings : List Binding) : Extends bindings bindings :=
  fun _ _ _ h => h

theorem Extends.trans {first second third : List Binding} (h₂ : Extends third second)
    (h₁ : Extends second first) : Extends third first :=
  fun field method slot h => h₂ field method slot (h₁ field method slot h)

/-- Binding what was not bound loses nothing. -/
theorem extends_cons {bindings : List Binding} {b : Binding}
    (h : find? bindings b.field b.method = none) : Extends (b :: bindings) bindings := by
  intro field method slot hslot
  rw [find?_cons]
  by_cases hb : b.field = field ∧ b.method = method
  · rw [← hb.1, ← hb.2, h] at hslot
    cases hslot
  · rw [if_neg hb]
    exact hslot

end Binding

namespace Candidate

theorem token_of_find? {candidates : List Candidate} {field : Token} {c : Candidate}
    (h : find? candidates field = some c) : c.token = field := by
  have hc := List.find?_some h
  exact eq_of_beq hc

theorem isSome_find?_iff (candidates : List Candidate) (field : Token) :
    (find? candidates field).isSome = true ↔ ∃ c ∈ candidates, c.token = field := by
  unfold find?
  rw [List.find?_isSome]
  simp only [beq_iff_eq]

theorem collect_cons (f : Field) (rest : List Field) :
    collect (f :: rest)
      = if f.isEligible && !(collect rest).any (fun c => c.token == f.token) then
          ofField f :: collect rest
        else collect rest := rfl

/-- Of several eligible fields with one token the last is the candidate. -/
theorem find?_collect (fields : List Field) (field : Token) :
    find? (collect fields) field
      = (fields.reverse.find? fun f => f.isEligible && f.token == field).map ofField := by
  induction fields with
  | nil => rfl
  | cons f rest ih =>
      rw [List.reverse_cons, List.find?_append, Option.map_or, ← ih, collect_cons]
      by_cases hf : f.isEligible = true ∧ f.token = field
      · obtain ⟨helig, rfl⟩ := hf
        rw [List.find?_cons_of_pos (by simp [helig]), helig, Bool.true_and]
        cases hlater : find? (collect rest) f.token with
        | some c =>
            have hany : (collect rest).any (fun c => c.token == f.token) = true := by
              obtain ⟨d, hd, htoken⟩ :=
                (isSome_find?_iff (collect rest) f.token).mp (by simp [hlater])
              exact List.any_eq_true.mpr ⟨d, hd, by simp [htoken]⟩
            rw [hany, Bool.not_true, if_neg Bool.false_ne_true, hlater]
            rfl
        | none =>
            have hany : (collect rest).any (fun c => c.token == f.token) = false := by
              simpa [find?] using hlater
            rw [hany, Bool.not_false, if_pos rfl]
            exact List.find?_cons_of_pos (by simp [ofField])
      · rw [List.find?_cons_of_neg (by simpa using hf), List.find?_nil, Option.map_none,
          Option.or_none]
        split_ifs with hnew
        · -- a candidate, but not the one that is looked for
          have helig : f.isEligible = true := by
            rw [Bool.and_eq_true] at hnew
            exact hnew.1
          exact List.find?_cons_of_neg (by simpa [ofField] using fun h => hf ⟨helig, h⟩)
        · rfl

/-- The tokens of the candidates are those of the eligible fields. -/
theorem isSome_find?_collect_iff (fields : List Field) (field : Token) :
    (find? (collect fields) field).isSome = true ↔
      ∃ f ∈ fields, f.isEligible = true ∧ f.token = field := by
  rw [find?_collect, Option.isSome_map, List.find?_isSome]
  simp only [List.mem_reverse, Bool.and_eq_true, beq_iff_eq]

end Candidate

/-- The candidate that an instruction accesses. -/
def Instruction.candidate? (candidates : List Candidate) (i : Instruction) : Option Candidate :=
  i.fieldToken?.bind (Candidate.find? candidates)

theorem Instruction.find?_of_candidate? {candidates : List Candidate} {i : Instruction}
    {c : Candidate} (h : i.candidate? candidates = some c) :
    i.fieldToken? = some c.token ∧ Candidate.find? candidates c.token = some c := by
  obtain ⟨field, hfield, hc⟩ := Option.bind_eq_some_iff.mp h
  have htoken := Candidate.token_of_find? hc
  subst htoken
  exact ⟨hfield, hc⟩

/-- The instruction with a static access turned into the same access to a local variable. An access
through an object keeps its form. -/
def Instruction.redirectedTo (slot : UInt16) (i : Instruction) : Instruction :=
  match i.opcode.staticAccess? with
  | none => i
  | some kind => ⟨Opcode.localAccess kind, .localSlot slot⟩

namespace Walk

/-! ## One step -/

/-- The walk after declaring a variable for a candidate. -/
def declare (method : Token) (c : Candidate) (w : Walk) : Walk :=
  { w with
    bindings := ⟨c.token, method, UInt16.ofNat w.locals.length⟩ :: w.bindings
    locals := w.locals ++ [{ signature := c.signature }]
    changed := true }

/-- What is recorded about an access to a candidate: nothing if it goes through an object or if that
is not wanted. -/
def accessEvents (config : RecoveryConfig) (method : Token) (index : Nat) (i : Instruction)
    (c : Candidate) (slot : UInt16) : List Event :=
  match i.opcode.staticAccess? with
  | none => []
  | some kind =>
      if config.recordAccesses then
        [redirectEvent method index c i.opcode (Opcode.localAccess kind) slot]
      else []

/-- A candidate has its variable already, or one is declared and recorded while there is room. -/
theorem slotFor_ok_inv {method : Token} {c : Candidate} {w w' : Walk} {slot : UInt16}
    {journal : Journal} (h : slotFor method c w = .ok (slot, w', journal)) :
    (Binding.find? w.bindings c.token method = some slot ∧ w' = w ∧ journal = {}) ∨
      (Binding.find? w.bindings c.token method = none ∧ w.locals.length < Body.localLimit ∧
        slot = UInt16.ofNat w.locals.length ∧ w' = w.declare method c ∧
        journal = localJournal method c slot) := by
  unfold slotFor at h
  cases hf : Binding.find? w.bindings c.token method with
  | some bound =>
      rw [hf] at h
      cases h
      exact Or.inl ⟨rfl, rfl, rfl⟩
  | none =>
      right
      rw [hf] at h
      unfold Body.freshSlot? at h
      split_ifs at h with hlt
      cases h
      exact ⟨rfl, hlt, rfl, rfl, rfl⟩

/-- A candidate is bound to the slot that it is given. -/
theorem find?_of_slotFor {method : Token} {c : Candidate} {w w' : Walk} {slot : UInt16}
    {journal : Journal} (h : slotFor method c w = .ok (slot, w', journal)) :
    Binding.find? w'.bindings c.token method = some slot := by
  rcases slotFor_ok_inv h with ⟨hf, rfl, _⟩ | ⟨_, _, rfl, rfl, _⟩
  · exact hf
  · unfold declare
    rw [Binding.find?_cons, if_pos ⟨rfl, rfl⟩]

variable {config : RecoveryConfig} {candidates : List Candidate} {method : Token}

theorem step_of_none {index : Nat} {i : Instruction} {w : Walk}
    (h : i.candidate? candidates = none) :
    step config candidates method index i w = .ok { instruction := i, walk := w } := by
  unfold Instruction.candidate? at h
  unfold step
  rw [h]

/-- A step that succeeds at an access to a candidate. -/
theorem step_ok_inv {index : Nat} {i : Instruction} {w : Walk} {c : Candidate} {move : Move}
    (hc : i.candidate? candidates = some c)
    (h : step config candidates method index i w = .ok move) :
    ∃ (slot : UInt16) (w' : Walk) (created : Journal),
      slotFor method c w = .ok (slot, w', created) ∧
      move.instruction = i.redirectedTo slot ∧
      move.walk = { w' with
        redirects := w'.redirects + 1
        changed := w'.changed || i.opcode.staticAccess?.isSome } ∧
      move.journal.events = created.events ++ accessEvents config method index i c slot := by
  unfold Instruction.candidate? at hc
  unfold step at h
  rw [hc] at h
  simp only [redirect] at h
  cases hs : slotFor method c w with
  | error e =>
      rw [hs] at h
      cases h
  | ok found =>
      obtain ⟨slot, w', created⟩ := found
      rw [hs] at h
      refine ⟨slot, w', created, rfl, ?_⟩
      unfold Instruction.redirectedTo accessEvents
      cases ha : i.opcode.staticAccess? with
      | none =>
          simp only [ha] at h
          cases h
          simp
      | some kind =>
          simp only [ha] at h
          -- a long access takes any slot
          have hbuild : Instruction.build (Opcode.localAccess kind) (.localSlot slot)
              = .ok ⟨Opcode.localAccess kind, .localSlot slot⟩ := rfl
          rw [hbuild] at h
          cases h
          cases config.recordAccesses <;> simp

/-- All that a step can do to the bindings and the variables: nothing, or declare one variable for
the candidate that is accessed. -/
theorem step_cases {index : Nat} {i : Instruction} {w : Walk} {move : Move}
    (h : step config candidates method index i w = .ok move) :
    (move.walk.bindings = w.bindings ∧ move.walk.locals = w.locals) ∨
      ∃ c, i.candidate? candidates = some c ∧
        Binding.find? w.bindings c.token method = none ∧ w.locals.length < Body.localLimit ∧
        move.walk.bindings = (w.declare method c).bindings ∧
        move.walk.locals = (w.declare method c).locals := by
  cases hc : i.candidate? candidates with
  | none =>
      rw [step_of_none hc] at h
      cases h
      exact Or.inl ⟨rfl, rfl⟩
  | some c =>
      obtain ⟨slot, w', created, hs, _, hwalk, _⟩ := step_ok_inv hc h
      rw [hwalk]
      rcases slotFor_ok_inv hs with ⟨_, rfl, _⟩ | ⟨hf, hlt, _, rfl, _⟩
      · exact Or.inl ⟨rfl, rfl⟩
      · exact Or.inr ⟨c, rfl, hf, hlt, rfl, rfl⟩

/-! ## Whole walks -/

theorem run_cons_of_error {index : Nat} {i : Instruction} {w : Walk} {e : Error}
    (h : step config candidates method index i w = .error e) (rest : Code) :
    run config candidates method index (i :: rest) w
      = { code := i :: rest, walk := w, error := some e } := by
  rw [run, h]

theorem run_cons_of_ok {index : Nat} {i : Instruction} {w : Walk} {move : Move}
    (h : step config candidates method index i w = .ok move) (rest : Code) :
    let tail := run config candidates method (index + 1) rest move.walk
    run config candidates method index (i :: rest) w
      = { tail with code := move.instruction :: tail.code
                    journal := move.journal ++ tail.journal } := by
  intro tail
  rw [run, h]

/-- What every step at an instruction of the code keeps, a walk keeps, also when it breaks off. -/
theorem run_preserves {P : Walk → Prop} (code : Code)
    (hstep : ∀ (index : Nat), ∀ i ∈ code, ∀ (w : Walk) (move : Move),
      step config candidates method index i w = .ok move → P w → P move.walk)
    (index : Nat) {w : Walk} (hw : P w) :
    P (run config candidates method index code w).walk := by
  induction code generalizing index w with
  | nil => exact hw
  | cons i rest ih =>
      unfold run
      cases hs : step config candidates method index i w with
      | error e => exact hw
      | ok move =>
          refine ih (fun index j hj => hstep index j (List.mem_cons_of_mem i hj)) (index + 1) ?_
          exact hstep index i List.mem_cons_self w move hs hw

/-- Bindings only grow. -/
theorem extends_run (code : Code) (index : Nat) (w : Walk) :
    Binding.Extends (run config candidates method index code w).walk.bindings w.bindings := by
  refine run_preserves (P := fun v => Binding.Extends v.bindings w.bindings) code ?_ index
    (Binding.Extends.refl w.bindings)
  intro _ i _ v move hs hv
  rcases step_cases hs with ⟨hb, _⟩ | ⟨c, _, hf, _, hb, _⟩
  · rw [hb]
    exact hv
  · rw [hb]
    exact Binding.Extends.trans (Binding.extends_cons hf) hv

/-- A walk through one method leaves the bindings of the others alone. -/
theorem find?_run_of_ne (code : Code) (index : Nat) (w : Walk) {other : Token}
    (hne : method ≠ other) (field : Token) :
    Binding.find? (run config candidates method index code w).walk.bindings field other
      = Binding.find? w.bindings field other := by
  refine run_preserves
    (P := fun v => Binding.find? v.bindings field other = Binding.find? w.bindings field other)
    code ?_ index rfl
  intro _ i _ v move hs hv
  rcases step_cases hs with ⟨hb, _⟩ | ⟨c, _, _, _, hb, _⟩
  · rw [hb]
    exact hv
  · rw [hb]
    unfold declare
    rw [Binding.find?_cons, if_neg (fun h => hne h.2)]
    exact hv

/-- What becomes of an instruction: one that accesses a candidate is redirected to the variable that
the candidate is bound to, any other stays. -/
def Redirected (candidates : List Candidate) (bindings : List Binding) (method : Token)
    (i i' : Instruction) : Prop :=
  match i.candidate? candidates with
  | none => i' = i
  | some c =>
      ∃ slot, Binding.find? bindings c.token method = some slot ∧ i' = i.redirectedTo slot

/-- The instruction that a step leaves behind stays right while the bindings grow. -/
theorem redirected_of_step {index : Nat} {i : Instruction} {w : Walk} {move : Move}
    {bindings : List Binding} (h : step config candidates method index i w = .ok move)
    (hext : Binding.Extends bindings move.walk.bindings) :
    Redirected candidates bindings method i move.instruction := by
  unfold Redirected
  cases hc : i.candidate? candidates with
  | none =>
      rw [step_of_none hc] at h
      cases h
      rfl
  | some c =>
      obtain ⟨slot, w', created, hs, hi, hwalk, _⟩ := step_ok_inv hc h
      have hbound := find?_of_slotFor hs
      refine ⟨slot, hext _ _ _ ?_, hi⟩
      rw [hwalk]
      exact hbound

/-- A walk that does not break off redirects every instruction, by the bindings at its end. -/
theorem redirected_run (code : Code) (index : Nat) (w : Walk)
    (hok : (run config candidates method index code w).error = none) :
    List.Forall₂
      (Redirected candidates (run config candidates method index code w).walk.bindings method)
      code (run config candidates method index code w).code := by
  induction code generalizing index w with
  | nil => exact List.Forall₂.nil
  | cons i rest ih =>
      unfold run at hok ⊢
      cases hs : step config candidates method index i w with
      | error e =>
          rw [hs] at hok
          cases hok
      | ok move =>
          rw [hs] at hok
          exact List.Forall₂.cons (redirected_of_step hs (extends_run rest (index + 1) move.walk))
            (ih (index + 1) move.walk hok)

end Walk

end LocalRecovery
