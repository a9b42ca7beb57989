import LocalRecovery.Proofs.Accounting

set_option autoImplicit false

/-! # Running out of variables

A body can number `Body.localLimit` variables. A walk needs one for each candidate that the code
accesses and that has none in the method yet (`Code.unbound`). One is declared at a time, so the
walk finds out about the limit in the middle of the code; yet whether it breaks off can be told from
the start (`Walk.run_error`), and likewise which method of a type is reported (`process_fails_iff`).

A walk that broke off leaves a body that is redirected up to some instruction and that is full
(`Body.BrokenOff`). The methods in front of it are dealt with, those behind it are not, and
redirecting them all again gets to the same instruction and does nothing more (`process_brokenOff`).
-/

namespace LocalRecovery

/-! ## Candidates without a variable -/

/-- The candidates that the code accesses and that have no variable in the method. -/
def Code.unbound (candidates : List Candidate) (bindings : List Binding) (method : Token)
    (code : Code) : Finset Token :=
  (code.filterMap Instruction.fieldToken?).toFinset.filter fun field =>
    (Candidate.find? candidates field).isSome = true ∧ Binding.find? bindings field method = none

section

variable {candidates : List Candidate} {bindings : List Binding} {method : Token}

theorem Code.mem_unbound_iff {code : Code} {field : Token} :
    field ∈ code.unbound candidates bindings method ↔
      code.Accesses field ∧ (Candidate.find? candidates field).isSome = true ∧
        Binding.find? bindings field method = none := by
  unfold Code.unbound Code.Accesses
  rw [Finset.mem_filter, List.mem_toFinset, List.mem_filterMap]

theorem Code.accesses_cons_iff {i : Instruction} {rest : Code} {field : Token} :
    Code.Accesses (i :: rest) field ↔ i.fieldToken? = some field ∨ rest.Accesses field := by
  unfold Code.Accesses
  rw [List.exists_mem_cons_iff]

/-- An instruction that accesses no candidate, or one that has its variable, does not count. -/
theorem Code.unbound_cons_of_bound {i : Instruction} (rest : Code)
    (h : ∀ c, i.candidate? candidates = some c → Binding.find? bindings c.token method ≠ none) :
    Code.unbound candidates bindings method (i :: rest)
      = rest.unbound candidates bindings method := by
  ext field
  rw [Code.mem_unbound_iff, Code.mem_unbound_iff, Code.accesses_cons_iff]
  refine and_congr_left fun ⟨hc, hf⟩ => or_iff_right fun hi => ?_
  obtain ⟨c, hfind⟩ := Option.isSome_iff_exists.mp hc
  refine h c ?_ ?_
  · unfold Instruction.candidate?
    rw [hi]
    exact hfind
  · rw [Candidate.token_of_find? hfind]
    exact hf

/-- The first access to a candidate without a variable counts ... -/
theorem Code.unbound_cons_of_new {i : Instruction} {c : Candidate} (rest : Code)
    (hc : i.candidate? candidates = some c) (hf : Binding.find? bindings c.token method = none) :
    Code.unbound candidates bindings method (i :: rest)
      = insert c.token (rest.unbound candidates bindings method) := by
  obtain ⟨hfield, hfind⟩ := Instruction.find?_of_candidate? hc
  ext field
  rw [Finset.mem_insert, Code.mem_unbound_iff, Code.mem_unbound_iff, Code.accesses_cons_iff, hfield,
    Option.some.injEq, or_and_right, eq_comm]
  refine or_congr_left (and_iff_left_of_imp ?_)
  rintro rfl
  exact ⟨Option.isSome_of_eq_some hfind, hf⟩

/-- ... and those behind it do not. -/
theorem Code.unbound_declare (code : Code) (c : Candidate) (slot : UInt16) :
    code.unbound candidates (⟨c.token, method, slot⟩ :: bindings) method
      = (code.unbound candidates bindings method).erase c.token := by
  ext field
  rw [Finset.mem_erase, Code.mem_unbound_iff, Code.mem_unbound_iff, Binding.find?_cons]
  by_cases heq : c.token = field
  · simp [heq]
  · simp [heq, Ne.symm heq]

end

/-! ## When a walk breaks off -/

namespace Walk

variable {config : RecoveryConfig} {candidates : List Candidate} {method : Token}

/-- Declaring a variable fails if there is no room for one more. -/
theorem slotFor_eq_error_iff {c : Candidate} {w : Walk} {e : Error} :
    slotFor method c w = .error e ↔
      Binding.find? w.bindings c.token method = none ∧ Body.localLimit ≤ w.locals.length ∧
        e = .localLimit method := by
  unfold slotFor Body.freshSlot?
  cases Binding.find? w.bindings c.token method with
  | some slot => simp
  | none =>
      by_cases hroom : w.locals.length < Body.localLimit
      · simp [hroom]
      · simp [hroom, Nat.le_of_not_lt hroom, eq_comm]

/-- Nothing else can fail in a step. -/
theorem step_eq_error_iff {index : Nat} {i : Instruction} {w : Walk} {e : Error} :
    step config candidates method index i w = .error e ↔
      ∃ c, i.candidate? candidates = some c ∧ Binding.find? w.bindings c.token method = none ∧
        Body.localLimit ≤ w.locals.length ∧ e = .localLimit method := by
  simp only [← slotFor_eq_error_iff]
  unfold step Instruction.candidate?
  cases i.fieldToken?.bind (Candidate.find? candidates) with
  | none => simp
  | some c =>
      simp only [Option.some.injEq, exists_eq_left', redirect]
      cases slotFor method c w with
      | error e' => simp
      | ok found =>
          -- an access through an object is kept, and a long access takes any slot
          cases i.opcode.staticAccess? with
          | none => simp
          | some kind =>
              have hbuild : Instruction.build (Opcode.localAccess kind) (.localSlot found.1)
                  = .ok ⟨Opcode.localAccess kind, .localSlot found.1⟩ := rfl
              simp [hbuild]

/-- A step declares no variable, or it takes one of the candidates that have none. -/
theorem card_unbound_step {index : Nat} {i : Instruction} {w : Walk} {move : Move}
    (h : step config candidates method index i w = .ok move) (rest : Code) :
    let needed := (Code.unbound candidates w.bindings method (i :: rest)).card
    let left := (rest.unbound candidates move.walk.bindings method).card
    (needed = left ∧ move.walk.locals.length = w.locals.length) ∨
      (needed = left + 1 ∧ move.walk.locals.length = w.locals.length + 1 ∧
        w.locals.length < Body.localLimit) := by
  intro needed left
  cases hc : i.candidate? candidates with
  | none =>
      rw [step_of_none hc] at h
      cases h
      refine Or.inl ⟨congrArg Finset.card (Code.unbound_cons_of_bound rest ?_), rfl⟩
      simp [hc]
  | some c =>
      obtain ⟨slot, w', created, hs, _, hwalk, _⟩ := step_ok_inv hc h
      simp only [needed, left, hwalk]
      rcases slotFor_ok_inv hs with ⟨hf, rfl, _⟩ | ⟨hf, hroom, _, rfl, _⟩
      · refine Or.inl ⟨congrArg Finset.card (Code.unbound_cons_of_bound rest ?_), rfl⟩
        rintro d hd
        obtain rfl : c = d := Option.some.inj (hc.symm.trans hd)
        simp [hf]
      · right
        unfold declare
        rw [Code.unbound_cons_of_new rest hc hf, Code.unbound_declare, List.length_append,
          List.length_singleton, ← Finset.erase_insert_eq_erase,
          Finset.card_erase_add_one (Finset.mem_insert_self _ _)]
        exact ⟨rfl, rfl, hroom⟩

/-- **When a walk breaks off.** It needs a variable for each candidate that has none, and it breaks
off exactly if there is no room for all of them. -/
theorem run_error (code : Code) (index : Nat) (w : Walk) :
    (run config candidates method index code w).error
      = if 1 ≤ (code.unbound candidates w.bindings method).card ∧
            Body.localLimit < w.locals.length + (code.unbound candidates w.bindings method).card
        then some (.localLimit method) else none := by
  induction code generalizing index w with
  | nil => rfl
  | cons i rest ih =>
      unfold run
      cases hs : step config candidates method index i w with
      | error e =>
          obtain ⟨c, hc, hf, hfull, rfl⟩ := step_eq_error_iff.mp hs
          have hneeded : 1 ≤ (Code.unbound candidates w.bindings method (i :: rest)).card := by
            rw [Code.unbound_cons_of_new rest hc hf]
            exact Finset.card_pos.mpr (Finset.insert_nonempty _ _)
          exact (if_pos ⟨hneeded, by omega⟩).symm
      | ok move =>
          simp only [ih]
          refine if_congr ?_ rfl rfl
          rcases card_unbound_step hs rest with ⟨hneeded, hlocals⟩ | ⟨hneeded, hlocals, hroom⟩
          · rw [hneeded, hlocals]
          · -- the variable that was declared is one fewer to come, and one more that is there
            omega

end Walk

/-! ## When redirecting fails -/

/-- The body has no room for all the variables that it needs. -/
def Body.Overflows (candidates : List Candidate) (bindings : List Binding) (method : Token)
    (b : Body) : Prop :=
  1 ≤ (b.code.unbound candidates bindings method).card ∧
    Body.localLimit < b.locals.length + (b.code.unbound candidates bindings method).card

instance (candidates : List Candidate) (bindings : List Binding) (method : Token) (b : Body) :
    Decidable (b.Overflows candidates bindings method) :=
  inferInstanceAs (Decidable (_ ∧ _))

def Method.Overflows (candidates : List Candidate) (bindings : List Binding) (m : Method) : Prop :=
  ∃ b ∈ m.body, b.Overflows candidates bindings m.token

instance (candidates : List Candidate) (bindings : List Binding) (m : Method) :
    Decidable (m.Overflows candidates bindings) :=
  inferInstanceAs (Decidable (∃ b ∈ m.body, b.Overflows candidates bindings m.token))

/-- Only the lookups for the method matter. -/
theorem Method.overflows_congr {candidates : List Candidate} {before after : List Binding}
    {m : Method}
    (h : ∀ field, Binding.find? after field m.token = Binding.find? before field m.token) :
    m.Overflows candidates after ↔ m.Overflows candidates before := by
  unfold Method.Overflows Body.Overflows Code.unbound
  simp only [h]

/-- The first method whose body has no room for all the variables that it needs. -/
def Method.firstOverflow? (candidates : List Candidate) (bindings : List Binding)
    (methods : List Method) : Option Method :=
  methods.find? fun m => decide (m.Overflows candidates bindings)

namespace Recovery

theorem redirectBody_eq_error_iff {p : Recovery} {method : Token} {b : Body} {e : Error} :
    (p.redirectBody method b).result = .error e ↔
      b.Overflows (p.candidates.getD []) p.bindings method ∧ e = .localLimit method := by
  have hwalk : (p.walk method b).error
      = if b.Overflows (p.candidates.getD []) p.bindings method then some (.localLimit method)
        else none := Walk.run_error b.code 0 _
  split_ifs at hwalk with hover
  · rw [redirectBody_of_error hwalk, Except.error.injEq, eq_comm]
    exact (and_iff_right hover).symm
  · rw [(redirectBody_of_none hwalk).1]
    simp [hover]

theorem redirectMethod_eq_error_iff {p : Recovery} {m : Method} {e : Error} :
    (p.redirectMethod m).result = .error e ↔
      m.Overflows (p.candidates.getD []) p.bindings ∧ e = .localLimit m.token := by
  rcases m with ⟨token, name, _ | b⟩
  · simp [redirectMethod, Method.Overflows]
  · refine redirectBody_eq_error_iff.trans (and_congr_left fun _ => ?_)
    simp [Method.Overflows]

/-- **When redirecting fails.** If methods have tokens of their own, whether a body has room does
not depend on the methods in front of it. -/
theorem redirectMethods_eq_error_iff {methods : List Method}
    (hnodup : (methods.map Method.token).Nodup) {p : Recovery} {e : Error} :
    (p.redirectMethods methods).result = .error e ↔
      ∃ m, Method.firstOverflow? (p.candidates.getD []) p.bindings methods = some m ∧
        e = .localLimit m.token := by
  induction methods generalizing p with
  | nil => simp [redirectMethods, Method.firstOverflow?]
  | cons m rest ih =>
      rw [List.map_cons, List.nodup_cons] at hnodup
      unfold Method.firstOverflow?
      cases hfirst : (p.redirectMethod m).result with
      | error e' =>
          obtain ⟨hover, rfl⟩ := redirectMethod_eq_error_iff.mp hfirst
          rw [redirectMethods_cons_of_error hfirst, List.find?_cons_of_pos (by simpa using hover)]
          simp [eq_comm]
      | ok changed =>
          have hroom : ¬ m.Overflows (p.candidates.getD []) p.bindings := fun hover => by
            rw [redirectMethod_eq_error_iff.mpr ⟨hover, rfl⟩] at hfirst
            cases hfirst
          -- the bindings of `m` say nothing about the methods behind it
          have hsame : Method.firstOverflow? (p.candidates.getD [])
                (p.redirectMethod m).pass.bindings rest
              = Method.firstOverflow? (p.candidates.getD []) p.bindings rest := by
            refine List.find?_congr fun n hn => decide_eq_decide.mpr ?_
            refine Method.overflows_congr fun field => ?_
            refine p.find?_redirectMethod_of_ne (fun heq => absurd ?_ hnodup.1) field
            rw [heq]
            exact List.mem_map_of_mem hn
          have hlater := ih hnodup.2 (p := (p.redirectMethod m).pass)
          rw [(p.redirectMethod_pass m).2, hsame] at hlater
          rw [redirectMethods_cons_of_ok hfirst, List.find?_cons_of_neg (by simpa using hroom)]
          exact map_eq_error_iff.trans hlater

/-- Likewise it succeeds exactly if each body has room. -/
theorem redirectMethods_eq_ok_iff {methods : List Method}
    (hnodup : (methods.map Method.token).Nodup) {p : Recovery} :
    (∃ changed, (p.redirectMethods methods).result = .ok changed) ↔
      ∀ m ∈ methods, ¬ m.Overflows (p.candidates.getD []) p.bindings := by
  have hnone : Method.firstOverflow? (p.candidates.getD []) p.bindings methods = none ↔
      ∀ m ∈ methods, ¬ m.Overflows (p.candidates.getD []) p.bindings := by
    unfold Method.firstOverflow?
    rw [List.find?_eq_none]
    simp only [decide_eq_true_eq]
  rw [← hnone]
  have herror := fun e => redirectMethods_eq_error_iff hnodup (p := p) (e := e)
  cases hresult : (p.redirectMethods methods).result with
  | error e =>
      obtain ⟨m, hm, _⟩ := (herror e).mp hresult
      simp [hm]
  | ok changed =>
      cases hfirst : Method.firstOverflow? (p.candidates.getD []) p.bindings methods with
      | none => simp
      | some m =>
          rw [(herror _).mpr ⟨m, hfirst, rfl⟩] at hresult
          cases hresult

end Recovery

/-! ## What a walk that broke off leaves -/

namespace Walk

variable {config : RecoveryConfig} {candidates : List Candidate} {method : Token}

/-- A walk in two parts, of which the first gets to its end. -/
theorem run_append {front : Code} {index : Nat} {w : Walk}
    (hok : (run config candidates method index front w).error = none) (back : Code) :
    let first := run config candidates method index front w
    let second := run config candidates method (index + front.length) back first.walk
    (run config candidates method index (front ++ back) w).code = first.code ++ second.code ∧
      (run config candidates method index (front ++ back) w).walk = second.walk ∧
      (run config candidates method index (front ++ back) w).error = second.error := by
  induction front generalizing index w with
  | nil => exact ⟨rfl, rfl, rfl⟩
  | cons i rest ih =>
      rw [List.cons_append]
      cases hs : step config candidates method index i w with
      | error e =>
          rw [run_cons_of_error hs] at hok
          cases hok
      | ok move =>
          rw [run_cons_of_ok hs] at hok
          rw [run_cons_of_ok hs, run_cons_of_ok hs, List.length_cons, Nat.add_comm rest.length,
            ← Nat.add_assoc]
          obtain ⟨hcode, hwalk, herror⟩ := ih hok
          exact ⟨congrArg (List.cons move.instruction) hcode, hwalk, herror⟩

/-- A walk that breaks off has come to an access for which there is no variable and no room. -/
theorem run_error_inv {code : Code} {index : Nat} {w : Walk} {e : Error}
    (h : (run config candidates method index code w).error = some e) :
    ∃ front i back c, code = front ++ i :: back ∧
      let first := run config candidates method index front w
      first.error = none ∧
      (run config candidates method index code w).code = first.code ++ i :: back ∧
      (run config candidates method index code w).walk = first.walk ∧
      i.candidate? candidates = some c ∧ Binding.find? first.walk.bindings c.token method = none ∧
      Body.localLimit ≤ first.walk.locals.length := by
  induction code generalizing index w with
  | nil => cases h
  | cons i rest ih =>
      cases hs : step config candidates method index i w with
      | error e' =>
          obtain ⟨c, hc, hf, hfull, _⟩ := step_eq_error_iff.mp hs
          refine ⟨[], i, rest, c, rfl, rfl, ?_⟩
          rw [run_cons_of_error hs]
          exact ⟨rfl, rfl, hc, hf, hfull⟩
      | ok move =>
          rw [run_cons_of_ok hs] at h
          obtain ⟨front, j, back, c, rfl, hok, hcode, hwalk, hc, hf, hfull⟩ := ih h
          refine ⟨i :: front, j, back, c, rfl, ?_⟩
          rw [run_cons_of_ok hs, run_cons_of_ok hs]
          exact ⟨hok, congrArg (List.cons move.instruction) hcode, hwalk, hc, hf, hfull⟩

/-- A walk declares no variable beyond the limit. -/
theorem length_locals_run (code : Code) (index : Nat) (w : Walk) :
    (run config candidates method index code w).walk.locals.length
      ≤ max w.locals.length Body.localLimit := by
  refine run_preserves (P := fun v => v.locals.length ≤ max w.locals.length Body.localLimit) code ?_
    index (Nat.le_max_left _ _)
  intro _ i _ v move hs hv
  rcases step_cases hs with ⟨_, hl⟩ | ⟨c, _, _, hroom, _, hl⟩
  · rw [hl]
    exact hv
  · rw [hl]
    unfold declare
    rw [List.length_append, List.length_singleton]
    omega

end Walk

/-- What is left of a body if the walk through it broke off at the instruction with the number
`index`. -/
structure Body.BrokenOff (candidates : List Candidate) (bindings : List Binding) (method : Token)
    (index : Nat) (b b' : Body) : Prop where
  /-- Nothing but the variables and the code has changed. -/
  rest : b' = { b with locals := b'.locals, code := b'.code }
  /-- The declared variables are there, and all numbers are taken. -/
  declared : b.locals <+: b'.locals
  full : b'.locals.length = max b.locals.length Body.localLimit
  /-- In front of that place the static accesses to candidates are redirected, in long spelling. -/
  redirected : List.Forall₂ (Walk.Redirected candidates bindings method) (b.code.take index)
    (b'.code.take index)
  /-- There stands an access to a candidate that has no variable. -/
  fault : ∃ i c, b.code[index]? = some i ∧ i.candidate? candidates = some c ∧
    Binding.find? bindings c.token method = none
  /-- From that place on the code is what it was. -/
  kept : b'.code.drop index = b.code.drop index

namespace Recovery

/-- The part of a body whose walk broke off. -/
theorem redirectBody_part_of_error {p : Recovery} {method : Token} {b : Body} {e : Error}
    (h : (p.walk method b).error = some e) :
    (p.redirectBody method b).part
      = { b with locals := (p.walk method b).walk.locals, code := (p.walk method b).code } := by
  unfold walk at h ⊢
  unfold redirectBody
  simp only [h]

/-- What redirecting leaves of a body without room. -/
theorem redirectBody_brokenOff {p : Recovery} {method : Token} {b : Body} {e : Error}
    (h : (p.redirectBody method b).result = .error e) :
    ∃ index,
      b.BrokenOff (p.candidates.getD []) (p.redirectBody method b).pass.bindings method index
        (p.redirectBody method b).part ∧
      (p.redirectBody method b).pass.redirects
        = p.redirects + Code.accessCount (p.candidates.getD []) (b.code.take index) := by
  cases hstop : (p.walk method b).error with
  | none =>
      rw [(redirectBody_of_none hstop).1] at h
      cases h
  | some e' =>
      rw [redirectBody_pass, redirectBody_part_of_error hstop]
      obtain ⟨front, i, back, c, hcode, hok, hcode', hwalk, hc, hf, hfull⟩ :=
        Walk.run_error_inv hstop
      -- the code in front of the fault has been walked through to its end
      have hredirected := Walk.redirected_run front 0 _ hok
      have hcount := (Walk.ledger_run front 0 _ hok).counted
      have hdeclared : b.locals <+: (p.walk method b).walk.locals :=
        Walk.locals_prefix_run b.code 0
          { bindings := p.bindings, locals := b.locals, redirects := p.redirects }
      have hlimit : (p.walk method b).walk.locals.length ≤ max b.locals.length Body.localLimit :=
        Walk.length_locals_run b.code 0
          { bindings := p.bindings, locals := b.locals, redirects := p.redirects }
      rw [Code.length_accesses] at hcount
      unfold walk at hdeclared hlimit ⊢
      rw [hwalk] at hdeclared hlimit
      rw [hcode', hwalk]
      refine ⟨front.length, ⟨rfl, hdeclared, ?_, ?_, ⟨i, c, ?_, hc, hf⟩, ?_⟩, ?_⟩
      · -- a body that was over the limit from the start gets no variable at all
        have hle := hdeclared.length_le
        exact Nat.le_antisymm hlimit (Nat.max_le.mpr ⟨hle, hfull⟩)
      · simp only
        rw [hcode, List.take_left, List.take_left' hredirected.length_eq.symm]
        exact hredirected
      · simp [hcode]
      · simp only
        rw [hcode, List.drop_left, List.drop_left' hredirected.length_eq.symm]
      · rw [hcode, List.take_left]
        exact hcount

/-- Redirecting in what is left of a body breaks off at the same place and does nothing more. -/
theorem redirectBody_again {p : Recovery} {method : Token} {index : Nat} {b b' : Body}
    (h : b.BrokenOff (p.candidates.getD []) p.bindings method index b') :
    (p.redirectBody method b').result = .error (.localLimit method) ∧
      (p.redirectBody method b').part = b' ∧
      (p.redirectBody method b').pass.bindings = p.bindings := by
  obtain ⟨i, c, hi, hc, hf⟩ := h.fault
  have hsplit : b'.code = b'.code.take index ++ i :: b.code.drop (index + 1) := by
    obtain ⟨hlt, rfl⟩ := List.getElem?_eq_some_iff.mp hi
    rw [List.cons_getElem_drop_succ, ← h.kept, List.take_append_drop]
  have hsettled : Code.Settled (p.candidates.getD []) p.bindings method (b'.code.take index) := by
    intro j' hj'
    obtain ⟨j, _, hj⟩ := exists_of_forall₂_right h.redirected hj'
    exact Walk.Means.settled ⟨j', hj, rfl⟩
  have hfull : Body.localLimit ≤ b'.locals.length := h.full ▸ Nat.le_max_right _ _
  -- the walk counts its way through the code in front, and then stands where it stood before
  obtain ⟨hok, hcode, hwalk, _⟩ := Walk.run_of_settled p.config (b'.code.take index) 0
    { bindings := p.bindings, locals := b'.locals, redirects := p.redirects } hsettled
  obtain ⟨hcode₂, hwalk₂, herror₂⟩ := Walk.run_append hok (i :: b.code.drop (index + 1))
  have hstep : ∀ k, Walk.step p.config (p.candidates.getD []) method k i
      (Walk.run p.config (p.candidates.getD []) method 0 (b'.code.take index)
        { bindings := p.bindings, locals := b'.locals, redirects := p.redirects }).walk
      = .error (.localLimit method) := by
    intro k
    rw [Walk.step_eq_error_iff, hwalk]
    exact ⟨c, hc, hf, hfull, rfl⟩
  rw [Walk.run_cons_of_error (hstep _), ← hsplit] at hcode₂ hwalk₂ herror₂
  rw [redirectBody_of_error herror₂, redirectBody_part_of_error herror₂, redirectBody_pass]
  unfold walk
  rw [hcode₂, hwalk₂, hcode, hwalk, ← hsplit]
  exact ⟨rfl, rfl, rfl⟩

/-! ## What is left of the methods -/

theorem redirectMethods_append {front : List Method} {p : Recovery} {changed : Bool}
    (hok : (p.redirectMethods front).result = .ok changed) (back : List Method) :
    let first := p.redirectMethods front
    let second := first.pass.redirectMethods back
    (p.redirectMethods (front ++ back)).result = second.result.map (changed || ·) ∧
      (p.redirectMethods (front ++ back)).pass = second.pass ∧
      (p.redirectMethods (front ++ back)).part = first.part ++ second.part := by
  induction front generalizing p changed with
  | nil =>
      cases hok
      refine ⟨?_, rfl, rfl⟩
      show (p.redirectMethods back).result = (p.redirectMethods back).result.map _
      cases (p.redirectMethods back).result <;> simp [Except.map]
  | cons m rest ih =>
      obtain ⟨⟨changed₁, hfirst⟩, ⟨changed₂, hrest⟩, _⟩ := redirectMethods_ok_inv hok
      rw [redirectMethods_cons_of_ok hfirst, hrest] at hok
      obtain rfl : (changed₁ || changed₂) = changed := Except.ok.inj hok
      obtain ⟨hresult, hpass, hpart⟩ := ih hrest
      rw [List.cons_append, redirectMethods_cons_of_ok hfirst, redirectMethods_cons_of_ok hfirst]
      refine ⟨?_, hpass, congrArg (List.cons _) hpart⟩
      simp only [hresult]
      cases (redirectMethods _ back).result <;> simp [Except.map, Bool.or_assoc]

/-- Redirecting stops at the first method that fails, and keeps those behind it as they are. -/
theorem redirectMethods_error_inv {methods : List Method} {p : Recovery} {e : Error}
    (h : (p.redirectMethods methods).result = .error e) :
    ∃ front m back changed, methods = front ++ m :: back ∧
      let first := p.redirectMethods front
      let last := first.pass.redirectMethod m
      first.result = .ok changed ∧ last.result = .error e ∧
        (p.redirectMethods methods).pass = last.pass ∧
        (p.redirectMethods methods).part = first.part ++ last.part :: back := by
  induction methods generalizing p with
  | nil => cases h
  | cons m rest ih =>
      cases hfirst : (p.redirectMethod m).result with
      | error e' =>
          rw [redirectMethods_cons_of_error hfirst] at h
          refine ⟨[], m, rest, false, rfl, rfl, hfirst.trans h, ?_⟩
          rw [redirectMethods_cons_of_error hfirst]
          exact ⟨rfl, rfl⟩
      | ok changed =>
          have hrest : ((p.redirectMethod m).pass.redirectMethods rest).result = .error e := by
            rw [redirectMethods_cons_of_ok hfirst] at h
            exact map_eq_error_iff.mp h
          obtain ⟨front, n, back, changed', rfl, hok, herror, hpass, hpart⟩ := ih hrest
          refine ⟨m :: front, n, back, changed || changed', rfl, ?_⟩
          rw [redirectMethods_cons_of_ok hfirst, redirectMethods_cons_of_ok hfirst, hok]
          exact ⟨rfl, herror, hpass, congrArg (List.cons _) hpart⟩

/-- What redirecting leaves of methods one of which has no room. -/
theorem redirectMethods_brokenOff {methods : List Method} {p : Recovery} {e : Error}
    (h : (p.redirectMethods methods).result = .error e) :
    let candidates := p.candidates.getD []
    let r := p.redirectMethods methods
    ∃ earlier m later b b' index changed,
      methods = earlier ++ m :: later ∧ m.body = some b ∧ e = .localLimit m.token ∧
      (p.redirectMethods earlier).result = .ok changed ∧
      (∀ n ∈ (p.redirectMethods earlier).part, n.Settled candidates r.pass.bindings) ∧
      r.part = (p.redirectMethods earlier).part ++ { m with body := some b' } :: later ∧
      b.BrokenOff candidates r.pass.bindings m.token index b' ∧
      r.pass.redirects = p.redirects + (earlier.map (Method.accessCount candidates)).sum
        + Code.accessCount candidates (b.code.take index) := by
  intro candidates r
  obtain ⟨earlier, m, later, changed, rfl, hok, herror, hpass, hpart⟩ := redirectMethods_error_inv h
  have hsettled := settled_redirectMethods hok
  have hext := extends_redirectMethod (p.redirectMethods earlier).pass m
  have hcandidates := (p.redirectMethods_pass earlier).2
  have hcount := (ledger_redirectMethods hok).counted
  rw [show r.pass = _ from hpass, show r.part = _ from hpart]
  -- the one that fails has a body
  rcases m with ⟨token, name, _ | b⟩
  · cases herror
  · obtain ⟨index, hbroken, hredirects⟩ := redirectBody_brokenOff (b := b) herror
    obtain ⟨_, rfl⟩ := redirectMethod_eq_error_iff.mp herror
    rw [hcandidates] at hbroken hredirects
    refine ⟨earlier, _, later, b, _, index, changed, rfl, rfl, rfl, hok, ?_, rfl, hbroken, ?_⟩
    · exact fun n hn => (hsettled n hn).mono hext
    · refine hredirects.trans (congrArg (· + _) ?_)
      refine hcount.trans (congrArg (p.redirects + ·) ?_)
      simp only [List.length_flatMap, Method.length_accesses, candidates]

theorem redirectMethod_again {p : Recovery} {m : Method} {index : Nat} {b b' : Body}
    (h : b.BrokenOff (p.candidates.getD []) p.bindings m.token index b') :
    let m' : Method := { m with body := some b' }
    (p.redirectMethod m').result = .error (.localLimit m.token) ∧
      (p.redirectMethod m').part = m' ∧ (p.redirectMethod m').pass.bindings = p.bindings := by
  obtain ⟨hresult, hpart, hbindings⟩ := redirectBody_again h
  exact ⟨hresult, congrArg (fun body => { m with body := some body }) hpart, hbindings⟩

/-- Redirecting again fails again, at the same place, and does nothing more. -/
theorem redirectMethods_again {methods : List Method} {p : Recovery} {e : Error}
    (h : (p.redirectMethods methods).result = .error e) :
    let r := p.redirectMethods methods
    let again := r.pass.redirectMethods r.part
    again.result = .error e ∧ again.part = r.part ∧ again.pass.bindings = r.pass.bindings := by
  intro r
  obtain ⟨earlier, m, later, b, b', index, changed, hmethods, hb, rfl, hok, hsettled, hpart,
    hbroken, _⟩ := redirectMethods_brokenOff h
  have hcandidates : r.pass.candidates = p.candidates := (p.redirectMethods_pass methods).2
  rw [← hcandidates] at hsettled hbroken
  obtain ⟨hok', hpart', hpass', _⟩ := redirectMethods_of_settled hsettled
  -- the methods in front are settled, so the one that fails is reached with the same bindings
  have hbroken' : b.BrokenOff
      ((r.pass.redirectMethods (p.redirectMethods earlier).part).pass.candidates.getD [])
      (r.pass.redirectMethods (p.redirectMethods earlier).part).pass.bindings m.token index b' := by
    rw [hpass']
    exact hbroken
  obtain ⟨herror, hlast, hbindings⟩ := redirectMethod_again hbroken'
  obtain ⟨hresult₂, hpass₂, hpart₂⟩ :=
    redirectMethods_append hok' ({ m with body := some b' } :: later)
  rw [redirectMethods_cons_of_error herror, ← hpart] at hresult₂ hpass₂ hpart₂
  refine ⟨hresult₂, ?_, ?_⟩
  · rw [hpart₂, hpart', hlast, ← hpart]
  · rw [hpass₂]
    refine hbindings.trans ?_
    rw [hpass']

end Recovery

/-! ## A crowded method -/

/-- Three methods that keep variables in global fields. The second has two of them, next to
variables of its own. -/
def crowdedType (locals : List LocalVariable) : TypeDef :=
  { token := ⟨0x02000002⟩, space := "", name := "Program"
    methods :=
      [ { token := ⟨0x06000001⟩, name := "Reset"
          body := some { code := [⟨.field .static .write, .token ⟨0x04000002⟩⟩] } },
        { token := ⟨0x06000002⟩, name := "Main"
          body := some
            { locals
              code :=
                [ ⟨.field .static .write, .token ⟨0x04000001⟩⟩,
                  ⟨.field .static .read, .token ⟨0x04000002⟩⟩ ] } },
        { token := ⟨0x06000003⟩, name := "Close"
          body := some { code := [⟨.field .static .read, .token ⟨0x04000001⟩⟩] } } ] }

def hoistedCrowd (locals : List LocalVariable) : Module :=
  { name := "crowd"
    types :=
      [ { token := ⟨0x02000001⟩, space := "", name := TypeDef.globalName
          fields :=
            [ { token := ⟨0x04000001⟩, name := "count", flags := ⟨0x16⟩
                signature := .primitive .int32 },
              { token := ⟨0x04000002⟩, name := "state", flags := ⟨0x16⟩
                signature := .primitive .int32 } ] },
        crowdedType locals ] }

theorem firstOverflow?_hoistedCrowd {locals : List LocalVariable} (h : locals.length = 65534) :
    ∃ m, Method.firstOverflow? (Recovery.candidatesIn {} (hoistedCrowd locals)) []
        (crowdedType locals).methods = some m ∧ m.token = ⟨0x06000002⟩ := by
  have hcandidates : Recovery.candidatesIn {} (hoistedCrowd locals)
      = [ ⟨⟨0x04000001⟩, "count", .primitive .int32⟩,
          ⟨⟨0x04000002⟩, "state", .primitive .int32⟩ ] := rfl
  rw [hcandidates]
  refine ⟨_, (List.find?_cons_of_neg ?_).trans (List.find?_cons_of_pos ?_), rfl⟩
  · decide
  · refine decide_eq_true ⟨_, rfl, ?_⟩
    unfold Body.Overflows
    simp only [h]
    decide

namespace Recovery

/-! ## Calls -/

theorem process_result_of_type {p : Recovery} {mod : Module} {token : Token} {t : TypeDef}
    (ht : mod.type token = .ok t) :
    (p.process mod token).result = ((p.locate mod).1.redirectMethods t.methods).result := by
  obtain ⟨front, back, hmod, rfl, hfront⟩ := Module.type_eq_ok_iff.mp ht
  exact (process_at hmod hfront).1

theorem process_hoistedCrowd {locals : List LocalVariable} (h : locals.length = 65534) :
    (process {} (hoistedCrowd locals) ⟨0x02000002⟩).result = .error (.localLimit ⟨0x06000002⟩) := by
  have hcrowded : (hoistedCrowd locals).type ⟨0x02000002⟩ = .ok (crowdedType locals) := rfl
  have hnodup : ((crowdedType locals).methods.map Method.token).Nodup := by
    show ([⟨0x06000001⟩, ⟨0x06000002⟩, ⟨0x06000003⟩] : List Token).Nodup
    decide
  obtain ⟨m, hm, hmethod⟩ := firstOverflow?_hoistedCrowd h
  rw [process_result_of_type hcrowded, locate_pass, redirectMethods_eq_error_iff hnodup]
  exact ⟨m, hm, congrArg Error.localLimit hmethod.symm⟩

/-- A call fails because there is no type with the token, or in the methods of the first one. -/
theorem process_error_inv {p : Recovery} {mod : Module} {token : Token} {e : Error}
    (h : (p.process mod token).result = .error e) :
    ((∀ t ∈ mod.types, t.token ≠ token) ∧ e = .typeNotFound token) ∨
      ∃ front t back, mod.types = front ++ t :: back ∧ t.token = token ∧
        (∀ u ∈ front, u.token ≠ token) ∧
        ((p.locate mod).1.redirectMethods t.methods).result = .error e := by
  rcases forall_or_exists_first (fun t : TypeDef => t.token == token) mod.types with
    hnone | ⟨front, t, back, hmod, ht, hfront⟩
  · have hmissing : ∀ t ∈ mod.types, t.token ≠ token := fun t ht => by simpa using hnone t ht
    rw [(process_missing hmissing).1] at h
    exact Or.inl ⟨hmissing, (Except.error.inj h).symm⟩
  · obtain rfl : t.token = token := by simpa using ht
    have hfirst : ∀ u ∈ front, u.token ≠ t.token := fun u hu => by simpa using hfront u hu
    rw [(process_at hmod hfirst).1] at h
    exact Or.inr ⟨front, t, back, hmod, rfl, hfirst, h⟩

/-- A call fails for want of a type or for want of a variable. -/
theorem process_error_cases {p : Recovery} {mod : Module} {token : Token} {e : Error}
    (h : (p.process mod token).result = .error e) :
    ((∀ t ∈ mod.types, t.token ≠ token) ∧ e = .typeNotFound token) ∨
      ∃ method, e = .localLimit method := by
  refine (process_error_inv h).imp_right ?_
  rintro ⟨_, _, _, _, _, _, herror⟩
  obtain ⟨_, m, _, _, _, _, hlast, _⟩ := redirectMethods_error_inv herror
  exact ⟨m.token, (redirectMethod_eq_error_iff.mp hlast).2⟩

/-- **When a call fails.** In any state and for any module, `process` reports a missing type exactly
if no type has the token. Otherwise let the methods of the first type with the token have tokens of
their own. A body needs a variable for each candidate that it accesses and that has none in the
method. The call reports the first method whose body needs some and has no room for all of them, and
it succeeds exactly if there is no such method. There are no other errors. -/
theorem process_fails_iff (p : Recovery) (mod : Module) (token : Token) :
    let result := (p.process mod token).result
    (result = .error (.typeNotFound token) ↔ ∀ t ∈ mod.types, t.token ≠ token) ∧
    (∀ t, mod.type token = .ok t → (t.methods.map Method.token).Nodup →
      (∀ method, result = .error (.localLimit method) ↔
        ∃ m, Method.firstOverflow? (p.candidatesIn mod) p.bindings t.methods = some m ∧
          m.token = method) ∧
      ((∃ changed, result = .ok changed) ↔
        ∀ m ∈ t.methods, ¬ m.Overflows (p.candidatesIn mod) p.bindings)) ∧
    ∀ e, result = .error e → e = .typeNotFound token ∨ ∃ method, e = .localLimit method := by
  intro result
  refine ⟨⟨fun h => ?_, fun h => (process_missing h).1⟩, fun t ht hnodup => ?_, fun e he => ?_⟩
  · rcases process_error_cases h with ⟨hmissing, _⟩ | ⟨method, hmethod⟩
    · exact hmissing
    · cases hmethod
  · have herror := fun e => redirectMethods_eq_error_iff hnodup (p := (p.locate mod).1) (e := e)
    have hok := redirectMethods_eq_ok_iff hnodup (p := (p.locate mod).1)
    rw [← process_result_of_type ht] at hok
    simp only [← process_result_of_type ht] at herror
    simp only [locate_pass, Option.getD_some] at herror hok
    refine ⟨fun method => (herror _).trans ?_, hok⟩
    simp only [Error.localLimit.injEq, eq_comm]
  · exact (process_error_cases he).imp_left And.right

theorem process_fails_iff_hoistedCrowd :
    let mod := hoistedCrowd (List.replicate 65534 { signature := .primitive .int32 })
    (process {} mod ⟨0x02000002⟩).result = .error (.localLimit ⟨0x06000002⟩) ∧
      (∃ changed, (process {} mod ⟨0x02000001⟩).result = .ok changed) ∧
      (process {} mod ⟨0x02000003⟩).result = .error (.typeNotFound ⟨0x02000003⟩) := by
  intro mod
  obtain ⟨_, hcrowded, _⟩ := process_fails_iff {} mod ⟨0x02000002⟩
  obtain ⟨_, hglobal, _⟩ := process_fails_iff {} mod ⟨0x02000001⟩
  obtain ⟨hmissing, _⟩ := process_fails_iff {} mod ⟨0x02000003⟩
  refine ⟨?_, ?_, hmissing.mpr ?_⟩
  · obtain ⟨hfails, _⟩ := hcrowded (crowdedType _) rfl (by decide)
    exact (hfails _).mpr (firstOverflow?_hoistedCrowd List.length_replicate)
  · obtain ⟨_, hsucceeds⟩ := hglobal _ rfl List.nodup_nil
    exact hsucceeds.mpr fun m hm => absurd hm List.not_mem_nil
  · intro t ht
    rcases List.mem_cons.mp ht with rfl | ht
    · decide
    · rw [List.mem_singleton.mp ht]
      decide

/-- A call that failed in the methods of a type fails again, and does nothing more. -/
theorem process_again {p : Recovery} {mod : Module} {front back : List TypeDef} {t : TypeDef}
    (hmod : mod.types = front ++ t :: back) (hfront : ∀ u ∈ front, u.token ≠ t.token) {e : Error}
    (h : ((p.locate mod).1.redirectMethods t.methods).result = .error e) :
    let s := p.process mod t.token
    let again := s.pass.process s.mod t.token
    again.result = .error e ∧ again.mod = s.mod ∧ again.pass.bindings = s.pass.bindings := by
  intro s
  obtain ⟨_, hpass, hafter⟩ := process_at (p := p) hmod hfront
  obtain ⟨hresult', hpart', hbindings'⟩ := redirectMethods_again h
  rw [← hpass] at hresult' hpart' hbindings'
  -- the candidates are known by now
  have hknown : s.pass.candidates = some (p.candidatesIn mod) := by
    rw [show s.pass = _ from hpass, (redirectMethods_pass _ _).2, locate_pass]
  obtain ⟨hresult, hpass₂, hafter₂⟩ :=
    process_at (p := s.pass) (congrArg Module.types hafter) hfront
  rw [locate_of_known hknown] at hresult hpass₂ hafter₂
  refine ⟨hresult.trans hresult', hafter₂.trans ?_, ?_⟩
  · rw [hpart', show s.mod = _ from hafter]
  · rw [hpass₂]
    exact hbindings'

/-- **What is left after a call that ran out of variables.** Let a call, in any state and for any
module, report a method without room for one more variable. It is a method of the first type with
the token, and it has a body. The methods in front of it are redirected as if they were all that
there is, those behind it and the other types are what they were, and its own body is broken off at
some instruction. The accesses in front of that instruction have been counted, and those in the
methods before as well. Making the call again leads to the same error, and it changes neither the
module nor the bindings. -/
theorem process_brokenOff (p : Recovery) (mod : Module) (token method : Token)
    (h : (p.process mod token).result = .error (.localLimit method)) :
    let s := p.process mod token
    let candidates := p.candidatesIn mod
    (∃ front t back earlier m later b b' index changed,
      mod.types = front ++ t :: back ∧ t.token = token ∧ (∀ u ∈ front, u.token ≠ token) ∧
      t.methods = earlier ++ m :: later ∧ m.token = method ∧ m.body = some b ∧
      let before := (p.locate mod).1.redirectMethods earlier
      before.result = .ok changed ∧
      s.mod = { mod with
        types := front
          ++ { t with methods := before.part ++ { m with body := some b' } :: later } :: back } ∧
      b.BrokenOff candidates s.pass.bindings method index b' ∧
      s.pass.redirects = p.redirects + (earlier.map (Method.accessCount candidates)).sum
        + Code.accessCount candidates (b.code.take index)) ∧
    let again := s.pass.process s.mod token
    again.result = .error (.localLimit method) ∧ again.mod = s.mod ∧
      again.pass.bindings = s.pass.bindings := by
  intro s candidates
  rcases process_error_inv h with ⟨_, hmissing⟩ | ⟨front, t, back, hmod, rfl, hfirst, herror⟩
  · cases hmissing
  · obtain ⟨_, hpass, hafter⟩ := process_at (p := p) hmod hfirst
    obtain ⟨earlier, m, later, b, b', index, changed, hmethods, hb, hm, hok, _, hpart, hbroken,
      hcount⟩ := redirectMethods_brokenOff herror
    obtain rfl : method = m.token := Error.localLimit.inj hm
    rw [← hpass, locate_pass] at hbroken hcount
    refine ⟨⟨front, t, back, earlier, m, later, b, b', index, changed, hmod, rfl, hfirst, hmethods,
      rfl, hb, hok, ?_, hbroken, hcount⟩, process_again hmod hfirst herror⟩
    rw [show s.mod = _ from hafter, hpart]

theorem process_brokenOff_hoistedCrowd :
    let mod := hoistedCrowd (List.replicate 65534 { signature := .primitive .int32 })
    let s := process {} mod ⟨0x02000002⟩
    let again := s.pass.process s.mod ⟨0x02000002⟩
    s.result = .error (.localLimit ⟨0x06000002⟩) ∧
      (∃ t ∈ s.mod.types, ∃ m ∈ t.methods, m.token = ⟨0x06000002⟩ ∧
        ∃ b ∈ m.body, Body.localLimit ≤ b.locals.length) ∧
      again.result = .error (.localLimit ⟨0x06000002⟩) ∧ again.mod = s.mod ∧
      again.pass.bindings = s.pass.bindings := by
  have hfails := process_hoistedCrowd
    (List.length_replicate (n := 65534) (a := { signature := .primitive .int32 }))
  generalize hoistedCrowd _ = mod at hfails ⊢
  obtain ⟨⟨front, t, back, earlier, m, later, b, b', index, changed, _, _, _, _, hm, _, _, hmod,
    hbroken, _⟩, hagain⟩ := process_brokenOff {} mod ⟨0x02000002⟩ ⟨0x06000002⟩ hfails
  have hfull : Body.localLimit ≤ b'.locals.length := hbroken.full ▸ Nat.le_max_right _ _
  refine ⟨hfails, ?_, hagain⟩
  rw [hmod]
  refine ⟨_, List.mem_append_right _ List.mem_cons_self, ?_⟩
  exact ⟨_, List.mem_append_right _ List.mem_cons_self, hm, b', rfl, hfull⟩

end Recovery

end LocalRecovery
