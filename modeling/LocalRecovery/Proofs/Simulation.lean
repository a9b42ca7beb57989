import LocalRecovery.Proofs.Bindings
import LocalRecovery.Proofs.Correspondence

set_option autoImplicit false

/-! # A redirected body runs like the body before

A body is run by a machine that has a stack, the arguments and cells: one for each variable of the
method and one for each static field. Loads and stores move values between the stack and a cell,
constants are pushed, branches are taken or not as the stack decides; what all other instructions do
to the stack and the arguments is left open (`Machine`).

The redirected body keeps the value of a candidate in another cell than the body before. Which cell
of the one stands for which cell of the other is the relation `Houses`, and it is one to one
(`Houses.eq_iff`): the variables that were added are not among the declared ones, and no two
candidates share one. So a store into a cell and a store into the cell that stands for it leave all
other pairs alone, and both bodies take the same steps for ever (`run_agrees`).
-/

namespace LocalRecovery

/-! ## The machine -/

/-- What instructions load from and store into: the variables of the method and the static
fields. -/
inductive Cell where
  | slot (index : UInt16)
  | static (field : Token)
  deriving DecidableEq

/-- What an instruction makes the machine do. -/
inductive Effect where
  | load (cell : Cell)
  | store (cell : Cell)
  | push (value : Int32)
  | jump (condition : Condition) (target : Nat)
  | other (meaning : Meaning)
  deriving DecidableEq

/-- Reads and writes of variables and of static fields go to their cells. -/
def Meaning.effect : Meaning → Effect
  | .slot ⟨.locals, .read⟩ index => .load (.slot index)
  | .slot ⟨.locals, .write⟩ index => .store (.slot index)
  | .constant value => .push value
  | .branch condition target => .jump condition target
  | .itself ⟨.field .static .read, .token field⟩ => .load (.static field)
  | .itself ⟨.field .static .write, .token field⟩ => .store (.static field)
  | meaning => .other meaning

/-- A machine that runs one body. -/
structure MachineState (Value Arguments : Type) where
  pc : Nat
  stack : List Value
  arguments : Arguments
  cells : Cell → Value

/-- What is left open about the machine: the values of constants, when a branch is taken and what it
leaves of the stack, and what the instructions do that access no cell. The last two may fail. -/
structure Machine (Value Arguments : Type) where
  constant : Int32 → Value
  branch : Condition → List Value → Option (Bool × List Value)
  other : Meaning → List Value → Arguments → Option (List Value × Arguments)

namespace Machine

variable {Value Arguments : Type}

/-- Does what an instruction says. -/
def exec (M : Machine Value Arguments) (s : MachineState Value Arguments) :
    Effect → Option (MachineState Value Arguments)
  | .load cell => some { s with pc := s.pc + 1, stack := s.cells cell :: s.stack }
  | .store cell =>
      match s.stack with
      | [] => none
      | value :: rest =>
          some { s with
            pc := s.pc + 1
            stack := rest
            cells := Function.update s.cells cell value }
  | .push value => some { s with pc := s.pc + 1, stack := M.constant value :: s.stack }
  | .jump condition target =>
      (M.branch condition s.stack).map fun (taken, stack) =>
        { s with pc := if taken then target else s.pc + 1, stack }
  | .other meaning =>
      (M.other meaning s.stack s.arguments).map fun (stack, arguments) =>
        { s with pc := s.pc + 1, stack, arguments }

/-- One step. The machine stops behind the code. -/
def step (M : Machine Value Arguments) (code : Code) (s : MachineState Value Arguments) :
    Option (MachineState Value Arguments) :=
  code[s.pc]?.bind fun i => M.exec s i.meaning.effect

/-- A number of steps. -/
def run (M : Machine Value Arguments) (code : Code) :
    Nat → MachineState Value Arguments → Option (MachineState Value Arguments)
  | 0, s => some s
  | n + 1, s => (M.step code s).bind (M.run code n)

end Machine

/-! ## Where values are kept -/

/-- A cell of the redirected body stands for a cell of the body before. Declared variables and
static fields that are no candidates stand for themselves, and a variable stands for the candidate
that is bound to it. -/
inductive Houses (p : Recovery) (method : Token) (declared : Nat) : Cell → Cell → Prop where
  | declared {index : UInt16} (below : index.toNat < declared) :
      Houses p method declared (.slot index) (.slot index)
  | static {field : Token} (other : p.candidate? field = none) :
      Houses p method declared (.static field) (.static field)
  | bound {field : Token} {slot : UInt16} (binding : p.binding? field method = some slot) :
      Houses p method declared (.static field) (.slot slot)

/-- The two states are at the same place with the same stack and arguments, and the second keeps
every value where it should be. -/
structure Agrees {Value Arguments : Type} (p : Recovery) (method : Token) (declared : Nat)
    (s s' : MachineState Value Arguments) : Prop where
  pc : s'.pc = s.pc
  stack : s'.stack = s.stack
  arguments : s'.arguments = s.arguments
  locals : ∀ index : UInt16, index.toNat < declared →
    s'.cells (.slot index) = s.cells (.slot index)
  statics : ∀ field, p.candidate? field = none → s'.cells (.static field) = s.cells (.static field)
  bound : ∀ (field : Token) (slot : UInt16), p.binding? field method = some slot →
    s'.cells (.slot slot) = s.cells (.static field)

theorem agrees_iff {Value Arguments : Type} {p : Recovery} {method : Token} {declared : Nat}
    {s s' : MachineState Value Arguments} :
    Agrees p method declared s s' ↔
      s'.pc = s.pc ∧ s'.stack = s.stack ∧ s'.arguments = s.arguments ∧
      ∀ cell cell', Houses p method declared cell cell' → s'.cells cell' = s.cells cell := by
  constructor
  · intro h
    refine ⟨h.pc, h.stack, h.arguments, ?_⟩
    intro cell cell' hcell
    cases hcell with
    | declared hlt => exact h.locals _ hlt
    | static hother => exact h.statics _ hother
    | bound hbinding => exact h.bound _ _ hbinding
  · rintro ⟨hpc, hstack, harguments, hcells⟩
    exact
      { pc := hpc
        stack := hstack
        arguments := harguments
        locals := fun _ hlt => hcells _ _ (.declared hlt)
        statics := fun _ hother => hcells _ _ (.static hother)
        bound := fun _ _ hbinding => hcells _ _ (.bound hbinding) }

/-- Two candidates of one method do not share a variable. -/
theorem Accounts.field_eq_of_slot {candidates : List Candidate} {bindings : List Binding}
    {method : Token} {declared current : List LocalVariable} {bound : List Candidate}
    (h : Accounts candidates bindings method declared current bound) {field other : Token}
    {slot : UInt16} (hfield : Binding.find? bindings field method = some slot)
    (hother : Binding.find? bindings other method = some slot) : field = other := by
  obtain ⟨k, c, hk, rfl, hnumber, _⟩ := h.exists_of_find? hfield
  obtain ⟨l, d, hl, rfl, hnumber', _⟩ := h.exists_of_find? hother
  have hsame : k = l := by omega
  rw [hsame, hl, Option.some.injEq] at hk
  rw [hk]

section

variable {p : Recovery} {method : Token} {declared current : List LocalVariable}

/-- **Cells stand for each other one to one.** -/
theorem Houses.eq_iff (h : Accounted (p.candidates.getD []) p.bindings method declared current)
    {c c' d d' : Cell} (hc : Houses p method declared.length c c')
    (hd : Houses p method declared.length d d') : c = d ↔ c' = d' := by
  obtain ⟨bound, hbound⟩ := h
  have hcandidate : ∀ {field slot other}, p.binding? field method = some slot →
      p.candidate? other = none → other ≠ field := by
    rintro field slot _ hslot hnone rfl
    obtain ⟨k, e, hk, rfl, _⟩ := hbound.exists_of_find? hslot
    have hknown := hbound.known e (List.mem_of_getElem? hk)
    cases hknown.symm.trans hnone
  have hfresh : ∀ {field slot} {index : UInt16}, p.binding? field method = some slot →
      index.toNat < declared.length → index ≠ slot := by
    rintro field slot _ hslot hlt rfl
    obtain ⟨k, e, _, _, hnumber, _⟩ := hbound.exists_of_find? hslot
    omega
  cases hc with
  | declared hlt =>
      cases hd with
      | declared => rfl
      | static => simp
      | bound hslot =>
          -- an added variable is none of the declared ones
          simpa only [reduceCtorEq, Cell.slot.injEq, false_iff] using hfresh hslot hlt
  | static hother =>
      cases hd with
      | declared => simp
      | static => rfl
      | bound hslot =>
          -- what is bound is a candidate
          simpa only [reduceCtorEq, Cell.static.injEq, iff_false] using hcandidate hslot hother
  | bound hslot =>
      cases hd with
      | declared hlt =>
          simpa only [reduceCtorEq, Cell.slot.injEq, false_iff] using (hfresh hslot hlt).symm
      | static hother =>
          simpa only [reduceCtorEq, Cell.static.injEq, iff_false]
            using (hcandidate hslot hother).symm
      | bound hslot' =>
          simp only [Cell.static.injEq, Cell.slot.injEq]
          constructor
          · rintro rfl
            exact Option.some.inj (hslot.symm.trans hslot')
          · rintro rfl
            exact hbound.field_eq_of_slot hslot hslot'

/-! ## One step -/

/-- The same effect, on cells that stand for each other. -/
inductive SameEffect (p : Recovery) (method : Token) (declared : Nat) : Effect → Effect → Prop where
  | load {cell cell' : Cell} (houses : Houses p method declared cell cell') :
      SameEffect p method declared (.load cell) (.load cell')
  | store {cell cell' : Cell} (houses : Houses p method declared cell cell') :
      SameEffect p method declared (.store cell) (.store cell')
  | push (value : Int32) : SameEffect p method declared (.push value) (.push value)
  | jump (condition : Condition) (target : Nat) :
      SameEffect p method declared (.jump condition target) (.jump condition target)
  | other (meaning : Meaning) : SameEffect p method declared (.other meaning) (.other meaning)

variable {Value Arguments : Type} {M : Machine Value Arguments}
  {s s' : MachineState Value Arguments}

/-- Storing one value into two cells that stand for each other. -/
theorem cells_update_agree
    (h : Accounted (p.candidates.getD []) p.bindings method declared current)
    {cells cells' : Cell → Value}
    (hcells : ∀ c c', Houses p method declared.length c c' → cells' c' = cells c) {d d' : Cell}
    (hd : Houses p method declared.length d d') (value : Value) :
    ∀ c c', Houses p method declared.length c c' →
      Function.update cells' d' value c' = Function.update cells d value c := by
  intro c c' hc
  have hsame := Houses.eq_iff h hc hd
  by_cases hcd : c = d
  · rw [hcd, hsame.mp hcd, Function.update_self, Function.update_self]
  · rw [Function.update_of_ne hcd, Function.update_of_ne (fun h' => hcd (hsame.mpr h'))]
    exact hcells c c' hc

theorem exec_agrees (h : Accounted (p.candidates.getD []) p.bindings method declared current)
    {e e' : Effect} (he : SameEffect p method declared.length e e')
    (hs : Agrees p method declared.length s s') :
    Option.Rel (Agrees p method declared.length) (M.exec s e) (M.exec s' e') := by
  obtain ⟨hpc, hstack, harguments, hcells⟩ := agrees_iff.mp hs
  cases he with
  | load hcell =>
      refine Option.Rel.some (agrees_iff.mpr ⟨?_, ?_, harguments, hcells⟩)
      · simp only [hpc]
      · simp only [hstack, hcells _ _ hcell]
  | store hcell =>
      -- the one effect that changes cells
      simp only [Machine.exec, hstack]
      cases s.stack with
      | nil => exact Option.Rel.none
      | cons value rest =>
          refine Option.Rel.some (agrees_iff.mpr ⟨?_, rfl, harguments, ?_⟩)
          · simp only [hpc]
          · exact cells_update_agree h hcells hcell value
  | push value =>
      refine Option.Rel.some (agrees_iff.mpr ⟨?_, ?_, harguments, hcells⟩)
      · simp only [hpc]
      · simp only [hstack]
  | jump condition target =>
      simp only [Machine.exec, hstack]
      cases M.branch condition s.stack with
      | none => exact Option.Rel.none
      | some outcome =>
          refine Option.Rel.some (agrees_iff.mpr ⟨?_, rfl, harguments, hcells⟩)
          simp only [hpc]
  | other meaning =>
      simp only [Machine.exec, hstack, harguments]
      cases M.other meaning s.stack s.arguments with
      | none => exact Option.Rel.none
      | some outcome =>
          refine Option.Rel.some (agrees_iff.mpr ⟨?_, rfl, rfl, hcells⟩)
          simp only [hpc]

/-- An instruction that stays has the same effect on both sides if it accesses declared variables
and static fields that are no candidates. -/
theorem sameEffect_self {n : Nat} {i : Instruction}
    (hdeclared : ∀ index, i.localIndex? = some index → index.toNat < n)
    (hstatic : ∀ (kind : AccessKind) (field : Token), i = ⟨.field .static kind, .token field⟩ →
      p.candidate? field = none) :
    SameEffect p method n i.meaning.effect i.meaning.effect := by
  have hlocal : ∀ {kind : AccessKind} {index : UInt16},
      i.meaning = .slot ⟨.locals, kind⟩ index → index.toNat < n := by
    intro kind index hm
    have haccess := Instruction.slotAccess?_of_meaning hm
    exact hdeclared index (Instruction.localIndex?_of_slotAccess? haccess)
  unfold Meaning.effect
  split
  · rename_i hm
    exact .load (.declared (hlocal hm))
  · rename_i hm
    exact .store (.declared (hlocal hm))
  · exact .push _
  · exact .jump _ _
  · rename_i field hm
    exact .load (.static (hstatic .read field (Instruction.eq_of_meaning_itself hm)))
  · rename_i field hm
    exact .store (.static (hstatic .write field (Instruction.eq_of_meaning_itself hm)))
  · exact .other _

/-- What an instruction is redirected to has the same effect. Only an address tells a variable from
the static field that it stands for. -/
theorem sameEffect_of_means {n : Nat} {i : Instruction} {meaning : Meaning}
    (hdeclared : ∀ index, i.localIndex? = some index → index.toNat < n)
    (haddress : ∀ field, i = ⟨.field .static .address, .token field⟩ → p.candidate? field = none)
    (h : Walk.Means (p.candidates.getD []) p.bindings method i meaning) :
    SameEffect p method n i.meaning.effect meaning.effect := by
  by_cases hcandidate : ∃ (kind : AccessKind) (field : Token),
      i = ⟨.field .static kind, .token field⟩ ∧ (p.candidate? field).isSome = true
  · obtain ⟨kind, field, rfl, hc⟩ := hcandidate
    obtain ⟨slot, hslot, rfl⟩ := h.of_static hc
    cases kind with
    | read => exact .load (.bound hslot)
    | write => exact .store (.bound hslot)
    | address =>
        rw [haddress field rfl] at hc
        cases hc
  · have hstatic : ∀ (kind : AccessKind) (field : Token),
        i = ⟨.field .static kind, .token field⟩ → ¬ (p.candidate? field).isSome = true :=
      fun kind field hi hc => hcandidate ⟨kind, field, hi, hc⟩
    rw [h.of_other hstatic]
    refine sameEffect_self hdeclared fun kind field hi => ?_
    simpa using hstatic kind field hi

/-! ## Whole runs -/

theorem step_agrees {code code' : Code}
    (h : Accounted (p.candidates.getD []) p.bindings method declared current)
    (hcode : List.Forall₂
      (fun i i' => SameEffect p method declared.length i.meaning.effect i'.meaning.effect)
      code code')
    (hs : Agrees p method declared.length s s') :
    Option.Rel (Agrees p method declared.length) (M.step code s) (M.step code' s') := by
  unfold Machine.step
  rw [hs.pc]
  cases hi : code[s.pc]? with
  | none =>
      have hend : code.length ≤ s.pc := List.getElem?_eq_none_iff.mp hi
      rw [List.getElem?_eq_none_iff.mpr (hcode.length_eq ▸ hend)]
      exact Option.Rel.none
  | some i =>
      have hlt : s.pc < code'.length :=
        hcode.length_eq ▸ (List.getElem?_eq_some_iff.mp hi).1
      obtain ⟨i', hi'⟩ : ∃ i', code'[s.pc]? = some i' := ⟨_, List.getElem?_eq_getElem hlt⟩
      rw [hi', Option.bind_some, Option.bind_some]
      exact exec_agrees h (forall₂_getElem? hcode hi hi') hs

/-- Both bodies take the same steps for as long as they run. -/
theorem run_agrees {code code' : Code}
    (h : Accounted (p.candidates.getD []) p.bindings method declared current)
    (hcode : List.Forall₂
      (fun i i' => SameEffect p method declared.length i.meaning.effect i'.meaning.effect)
      code code')
    (n : Nat) (hs : Agrees p method declared.length s s') :
    Option.Rel (Agrees p method declared.length) (M.run code n s) (M.run code' n s') := by
  induction n generalizing s s' with
  | zero => exact Option.Rel.some hs
  | succ n ih =>
      have hstep := step_agrees (M := M) h hcode hs
      unfold Machine.run
      generalize M.step code s = next at hstep ⊢
      generalize M.step code' s' = next' at hstep ⊢
      cases hstep with
      | none => exact Option.Rel.none
      | some hnext => exact ih hnext

end

namespace Recovery

/-- **Simulation.** Let a method have no bindings, let its body access declared variables only and
take the address of no candidate, and let redirecting its accesses succeed, with shrinking or
without. Take any machine and two states that agree: on the place, the stack and the arguments, on
declared variables and on static fields that are no candidates, where the variable of each bound
candidate holds in the second what the static field holds in the first. Then the body and the
redirected body take every step together: both stop, or both go on in states that agree again. -/
theorem redirectBody_simulates {Value Arguments : Type} (M : Machine Value Arguments)
    (p : Recovery) (method : Token) (b : Body) (changed : Bool)
    (hnew : ∀ field, p.binding? field method = none)
    (hdeclared : ∀ i ∈ b.code, ∀ index, i.localIndex? = some index →
      index.toNat < b.locals.length)
    (haddress : ∀ i ∈ b.code, ∀ field, i = ⟨.field .static .address, .token field⟩ →
      p.candidate? field = none)
    (hok : (p.redirectBody method b).result = .ok changed) :
    let r := p.redirectBody method b
    ∀ s s' : MachineState Value Arguments, Agrees r.pass method b.locals.length s s' →
      Option.Rel (Agrees r.pass method b.locals.length) (M.step b.code s) (M.step r.part.code s') ∧
      ∀ n, Option.Rel (Agrees r.pass method b.locals.length) (M.run b.code n s)
        (M.run r.part.code n s') := by
  intro r s s' hs
  have hcandidates : r.pass.candidates = p.candidates := by
    show (p.redirectBody method b).pass.candidates = _
    rw [redirectBody_pass]
  have haccounted : Accounted (r.pass.candidates.getD []) r.pass.bindings method b.locals
      r.part.locals := by
    rw [hcandidates]
    show Accounted _ (p.redirectBody method b).pass.bindings _ _
      (p.redirectBody method b).part.locals
    rw [redirectBody_pass, redirectBody_locals]
    exact accounted_run b.code 0 (accounted_unbound _ hnew)
  have hcode : List.Forall₂ (fun i i' =>
      SameEffect r.pass method b.locals.length i.meaning.effect i'.meaning.effect)
      b.code r.part.code := by
    have hmeans := means_redirectBody hok
    rw [List.forall₂_map_right_iff, ← hcandidates] at hmeans
    refine ((List.forall₂_and_left _ _).mpr ⟨fun i hi => hi, hmeans⟩).imp ?_
    rintro i i' ⟨hi, hmean⟩
    refine sameEffect_of_means (hdeclared i hi) (fun field hfield => ?_) hmean
    unfold candidate?
    rw [hcandidates]
    exact haddress i hi field hfield
  exact ⟨step_agrees haccounted hcode hs, fun n => run_agrees haccounted hcode n hs⟩

/-- A constant goes through a candidate into a declared variable, round and round. -/
theorem redirectBody_simulates_copy :
    let M : Machine Int Unit :=
      { constant := Int32.toInt
        branch := fun _ stack => some (true, stack)
        other := fun _ _ _ => none }
    let p : Recovery :=
      { candidates := some [⟨⟨0x04000001⟩, "index", .primitive .int32⟩] }
    let b : Body :=
      { locals := [{ signature := .primitive .int32 }]
        code :=
          [ ⟨.constant .long, .immediate (.int32 5)⟩,
            ⟨.field .static .write, .token ⟨0x04000001⟩⟩,
            ⟨.field .static .read, .token ⟨0x04000001⟩⟩,
            ⟨.fixedSlot .storeLocal 0, .none⟩,
            ⟨.branch .always .long, .target 0⟩ ] }
    let r := p.redirectBody ⟨0x06000001⟩ b
    let s : MachineState Int Unit := { pc := 0, stack := [], arguments := (), cells := fun _ => 0 }
    r.result = .ok true ∧ r.pass.binding? ⟨0x04000001⟩ ⟨0x06000001⟩ = some 1 ∧
      Agrees r.pass ⟨0x06000001⟩ 1 s s ∧
      ∃ t, M.run r.part.code 9 s = some t ∧ t.pc = 4 ∧ t.cells (.slot 0) = 5 ∧
        t.cells (.slot 1) = 5 := by
  intro M p b r s
  have hok : r.result = .ok true := by rfl
  have hbinding : r.pass.binding? ⟨0x04000001⟩ ⟨0x06000001⟩ = some 1 := by rfl
  have hs : Agrees r.pass ⟨0x06000001⟩ 1 s s :=
    ⟨rfl, rfl, rfl, fun _ _ => rfl, fun _ _ => rfl, fun _ _ _ => rfl⟩
  refine ⟨hok, hbinding, hs, ?_⟩
  have hlocals : ∀ i ∈ b.code, ∀ index, i.localIndex? = some index →
      index.toNat < b.locals.length := by
    intro i hi index hindex
    obtain rfl : i = ⟨.fixedSlot .storeLocal 0, .none⟩ := by
      simp only [b, List.mem_cons, List.not_mem_nil, or_false] at hi
      rcases hi with rfl | rfl | rfl | rfl | rfl <;> cases hindex
      rfl
    cases hindex
    decide
  have haddress : ∀ i ∈ b.code, ∀ field, i = ⟨.field .static .address, .token field⟩ →
      p.candidate? field = none := by
    rintro i hi field rfl
    simp [b] at hi
  obtain ⟨_, hruns⟩ :=
    redirectBody_simulates M p ⟨0x06000001⟩ b true (fun _ => rfl) hlocals haddress hok s s hs
  have hrun : ∃ t, M.run b.code 9 s = some t ∧ t.pc = 4 ∧ t.cells (.slot 0) = 5 ∧
      t.cells (.static ⟨0x04000001⟩) = 5 := ⟨_, rfl, rfl, rfl, rfl⟩
  obtain ⟨t, ht, hpc, hdeclared, hstatic⟩ := hrun
  have hrel := hruns 9
  rw [ht] at hrel
  generalize M.run r.part.code 9 s = after at hrel ⊢
  cases hrel with
  | some hagrees =>
      refine ⟨_, rfl, hagrees.pc.trans hpc, ?_, ?_⟩
      · exact (hagrees.locals 0 (by decide)).trans hdeclared
      · exact (hagrees.bound _ _ hbinding).trans hstatic

end Recovery

end LocalRecovery
