import LocalRecovery.Proofs.Handled

set_option autoImplicit false

/-! # References to removed fields

After the fields have been removed, some instructions may still name one of them. `finalize` goes
through the accesses to fields (`Module.fieldReferences`) and records a warning for each that names
a removed field. Counted place by place, these are exactly the instructions with a field opcode that
name such a field (`reports_accesses`), methods that share a token included.

A field can be named without being accessed: an instruction can load its token. Such an instruction
is no access and is passed over. So every name of a removed field is reported if and only if no
instruction loads the token of one (`reports_names_iff`).
-/

namespace LocalRecovery

/-! ## Counting -/

/-- Of the entries of a numbered list, at most the one with the given number counts. -/
theorem countP_zipIdx {α : Type} (P : α → Bool) (l : List α) (start k : Nat) :
    (l.zipIdx start).countP (fun entry => entry.2 == start + k && P entry.1)
      = if l[k]?.any P then 1 else 0 := by
  induction l generalizing start k with
  | nil => rfl
  | cons a rest ih =>
      rw [List.zipIdx_cons, List.countP_cons]
      cases k with
      | zero =>
          have hrest : (rest.zipIdx (start + 1)).countP
              (fun entry => entry.2 == start + 0 && P entry.1) = 0 := by
            refine List.countP_eq_zero.mpr fun entry hentry => ?_
            have hle := List.le_snd_of_mem_zipIdx hentry
            have hne : entry.2 ≠ start := by omega
            simp [hne]
          rw [hrest]
          simp
      | succ k =>
          have hshift := ih (start + 1) k
          rw [show start + 1 + k = start + (k + 1) by omega] at hshift
          rw [hshift]
          have hne : (start == start + (k + 1)) = false := by simp
          simp [hne]

theorem countP_flatMap_eq {α β : Type} {p : β → Bool} {q : α → Bool} {f : α → List β} (l : List α)
    (h : ∀ a, (f a).countP p = if q a then 1 else 0) : (l.flatMap f).countP p = l.countP q := by
  induction l with
  | nil => rfl
  | cons a rest ih =>
      rw [List.flatMap_cons, List.countP_append, List.countP_cons, ih, h a, Nat.add_comm]

theorem countP_or {α : Type} {p q : α → Bool} (l : List α) (h : ∀ a, ¬ (p a = true ∧ q a = true)) :
    l.countP (fun a => p a || q a) = l.countP p + l.countP q := by
  induction l with
  | nil => rfl
  | cons a rest ih =>
      have ha := h a
      simp only [List.countP_cons, ih]
      cases hp : p a <;> cases hq : q a <;> simp_all <;> omega

/-! ## Places that name a field -/

namespace Instruction

/-- The field whose token the instruction loads. -/
def loadedToken? (i : Instruction) : Option Token :=
  match i.opcode, i.operand with
  | .loadToken, .token token => some token
  | _, _ => none

/-- The field that the instruction names, be it by an access or by loading its token. -/
def namedField? (i : Instruction) : Option Token :=
  i.fieldToken?.or i.loadedToken?

theorem eq_of_loadedToken? {i : Instruction} {field : Token} (h : i.loadedToken? = some field) :
    i = ⟨.loadToken, .token field⟩ := by
  rcases i with ⟨opcode, operand⟩
  unfold loadedToken? at h
  split at h
  · rename_i hop hod
    cases h
    exact congrArg₂ Instruction.mk hop hod
  · cases h

end Instruction

/-- The instruction at an index of the body. -/
def Method.instructionAt (m : Method) (index : Nat) : Option Instruction :=
  m.body.bind fun b => b.code[index]?

/-- Does the method have the token, and does its instruction at the index name one of the fields?
What it names is up to `reads`. -/
def Method.mentions (reads : Instruction → Option Token) (fields : List Token) (method : Token)
    (index : Nat) (m : Method) : Bool :=
  m.token == method &&
    (m.instructionAt index).any fun i => (reads i).any fun field => decide (field ∈ fields)

/-- The number of instructions at a place that name one of the fields. There can be several if
methods share a token. -/
def Module.mentions (reads : Instruction → Option Token) (fields : List Token) (mod : Module)
    (method : Token) (index : Nat) : Nat :=
  mod.methods.countP (Method.mentions reads fields method index)

/-- The tokens of the fields of the global type that are not there any more. -/
def Module.removedFields (before after : Module) : List Token :=
  (before.globalFields.filter fun f => decide (f ∉ after.globalFields)).map Field.token

/-- The number of warnings at a place. -/
def Journal.warningsAt (journal : Journal) (method : Token) (index : Nat) : Nat :=
  journal.events.countP fun e =>
    e.kind == .warning && e.method == some method && e.location == some index

/-- There is one warning for each instruction that names a removed field, at its place, and no other
warning. -/
structure Reports (reads : Instruction → Option Token) (before after : Module)
    (journal : Journal) : Prop where
  counts : ∀ (method : Token) (index : Nat),
    journal.warningsAt method index
      = after.mentions reads (before.removedFields after) method index
  placed : ∀ e ∈ journal.events, e.kind = .warning →
    ∃ (method : Token) (index : Nat), e.method = some method ∧ e.location = some index

/-! ## What `finalize` reports -/

theorem Module.fieldReferences_eq (mod : Module) :
    mod.fieldReferences = mod.methods.flatMap Method.fieldReferences := by
  unfold Module.fieldReferences Module.methods
  rw [List.flatMap_assoc]

/-- Among the accesses of a method there is at most one for each place. -/
theorem Method.countP_fieldReferences (fields : List Token) (method : Token) (index : Nat)
    (m : Method) :
    m.fieldReferences.countP (fun r =>
        r.method == method && r.index == index && decide (r.field ∈ fields))
      = if m.mentions Instruction.fieldToken? fields method index then 1 else 0 := by
  unfold Method.fieldReferences Method.mentions Method.instructionAt
  cases m.body with
  | none => simp
  | some b =>
      unfold Code.fieldReferences
      rw [List.countP_filterMap]
      have hcount := countP_zipIdx
        (fun i : Instruction =>
          m.token == method && i.fieldToken?.any fun field => decide (field ∈ fields))
        b.code 0 index
      refine (List.countP_congr ?_).trans (hcount.trans ?_)
      · rintro ⟨i, k⟩ _
        cases hi : i.fieldToken? <;> simp [hi, and_left_comm, and_assoc]
      · cases hi : b.code[index]? <;> simp [hi]

variable {p : Recovery} {mod : Module}

/-- The fields that are gone are those that have become variables. -/
theorem Recovery.removedFields_finalize {front back : List TypeDef} {t : TypeDef}
    (hremove : p.config.removeFields = true) (hmod : mod.types = front ++ t :: back)
    (ht : t.isGlobal = true) (hfront : ∀ u ∈ front, u.isGlobal = false) :
    mod.removedFields (p.finalize mod).mod
      = (t.fields.filter fun f => p.isConverted f.token).map Field.token := by
  have hbefore : mod.globalFields = t.fields := Module.globalFields_at hmod ht hfront
  have hafter := Recovery.globalFields_finalize hremove mod
  unfold Module.removedFields
  rw [hafter, hbefore]
  congr 1
  -- a field of the list is missing from what was kept exactly if it is converted
  refine List.filter_congr fun f hf => ?_
  simp [hf]

/-- The warnings of a call, place by place. What is recorded about the removed fields themselves is
no warning. -/
theorem warningsAt_dangling (removed : List Field) (after : Module) (messages : List Message)
    (method : Token) (index : Nat) :
    Journal.warningsAt
        { events := removed.map Recovery.removalEvent
            ++ (after.fieldReferences.filter fun r =>
                removed.any fun f => f.token == r.field).map Recovery.danglingEvent
          messages }
        method index
      = after.mentions Instruction.fieldToken? (removed.map Field.token) method index := by
  have hremovals : (removed.map Recovery.removalEvent).countP (fun e =>
      e.kind == .warning && e.method == some method && e.location == some index) = 0 := by
    refine List.countP_eq_zero.mpr fun e he => ?_
    obtain ⟨f, _, rfl⟩ := List.mem_map.mp he
    simp [Recovery.removalEvent]
  unfold Journal.warningsAt Module.mentions
  rw [List.countP_append, hremovals, Nat.zero_add, List.countP_map, List.countP_filter,
    Module.fieldReferences_eq]
  rw [← countP_flatMap_eq after.methods
    (Method.countP_fieldReferences (removed.map Field.token) method index)]
  refine List.countP_congr fun r _ => ?_
  simp [Recovery.danglingEvent]

theorem removedFields_self (mod : Module) : mod.removedFields mod = [] := by
  unfold Module.removedFields
  simp

theorem reports_nothing (reads : Instruction → Option Token) (mod : Module) :
    Reports reads mod mod {} where
  counts method index := by
    rw [removedFields_self]
    refine (List.countP_eq_zero.mpr fun m _ => ?_).symm
    unfold Method.mentions
    cases m.instructionAt index <;> simp
  placed e he := by cases he

/-- `finalize` reports every access to a removed field, and nothing else. -/
theorem Recovery.reports_accesses (p : Recovery) (mod : Module) :
    Reports Instruction.fieldToken? mod (p.finalize mod).mod (p.finalize mod).journal := by
  rcases p.idle_or_exists_global mod with hidle | ⟨hremove, front, t, back, hmod, ht, hfront⟩
  · obtain ⟨hmod, hjournal⟩ := finalize_idle hidle
    rw [hmod, hjournal]
    exact reports_nothing _ mod
  · obtain ⟨_, hevents⟩ := finalize_at hremove hmod ht hfront
    have hremoved := removedFields_finalize hremove hmod ht hfront
    constructor
    · intro method index
      rw [hremoved, ← warningsAt_dangling _ _ (p.finalize mod).journal.messages]
      unfold Journal.warningsAt
      rw [hevents]
    · intro e he hkind
      rw [hevents] at he
      rcases List.mem_append.mp he with he | he
      · obtain ⟨f, _, rfl⟩ := List.mem_map.mp he
        cases hkind
      · obtain ⟨r, _, rfl⟩ := List.mem_map.mp he
        exact ⟨r.method, r.index, rfl, rfl⟩

/-! ## Names that are no accesses -/

theorem Instruction.loadedToken?_of_fieldToken? {i : Instruction} {field : Token}
    (h : i.fieldToken? = some field) : i.loadedToken? = none := by
  obtain ⟨storage, kind, rfl⟩ := Instruction.eq_of_fieldToken? h
  rfl

/-- An instruction names a field by an access or by loading its token, and not by both. -/
theorem Module.mentions_named (fields : List Token) (mod : Module) (method : Token) (index : Nat) :
    mod.mentions Instruction.namedField? fields method index
      = mod.mentions Instruction.fieldToken? fields method index
        + mod.mentions Instruction.loadedToken? fields method index := by
  unfold Module.mentions
  rw [← countP_or]
  · refine List.countP_congr fun m _ => ?_
    unfold Method.mentions Instruction.namedField?
    cases m.instructionAt index with
    | none => simp
    | some i =>
        cases hi : i.fieldToken? with
        | none => simp [hi]
        | some field => simp [hi, Instruction.loadedToken?_of_fieldToken? hi]
  · intro m
    unfold Method.mentions
    cases m.instructionAt index with
    | none => simp
    | some i =>
        cases hi : i.fieldToken? with
        | none => simp [hi]
        | some field => simp [Instruction.loadedToken?_of_fieldToken? hi]

/-- No instruction of the module loads the token of one of the fields. -/
def Module.LoadsNone (fields : List Token) (mod : Module) : Prop :=
  ∀ m ∈ mod.methods, ∀ b, m.body = some b → ∀ field ∈ fields,
    (⟨.loadToken, .token field⟩ : Instruction) ∉ b.code

theorem Module.loadsNone_iff (fields : List Token) (mod : Module) :
    mod.LoadsNone fields ↔
      ∀ (method : Token) (index : Nat),
        mod.mentions Instruction.loadedToken? fields method index = 0 := by
  unfold Module.mentions
  simp only [List.countP_eq_zero]
  constructor
  · intro h method index m hm hmentions
    unfold Method.mentions Method.instructionAt at hmentions
    rw [Bool.and_eq_true, Option.any_eq_true] at hmentions
    obtain ⟨_, i, hi, hloaded⟩ := hmentions
    obtain ⟨field, hfield, hin⟩ := (Option.any_eq_true _ _).mp hloaded
    obtain ⟨b, hb, hcode⟩ := Option.bind_eq_some_iff.mp hi
    rw [Instruction.eq_of_loadedToken? hfield] at hcode
    exact h m hm b hb field (of_decide_eq_true hin) (List.mem_of_getElem? hcode)
  · intro h m hm b hb field hfield hmem
    obtain ⟨index, hindex⟩ := List.mem_iff_getElem?.mp hmem
    refine h m.token index m hm ?_
    unfold Method.mentions Method.instructionAt
    simp [hb, hindex, Instruction.loadedToken?, hfield]

namespace Recovery

/-- Every name of a removed field is reported if and only if none is the load of a token. -/
theorem reports_names_iff (p : Recovery) (mod : Module) :
    Reports Instruction.namedField? mod (p.finalize mod).mod (p.finalize mod).journal ↔
      (p.finalize mod).mod.LoadsNone (mod.removedFields (p.finalize mod).mod) := by
  have haccesses := p.reports_accesses mod
  rw [Module.loadsNone_iff]
  constructor
  · intro hnames method index
    have hcount := hnames.counts method index
    rw [haccesses.counts method index, Module.mentions_named] at hcount
    omega
  · intro hnone
    refine ⟨fun method index => ?_, haccesses.placed⟩
    rw [haccesses.counts method index, Module.mentions_named, hnone method index, Nat.add_zero]

/-- **Reports about removed fields.** In any state and for any module, `finalize` records one
warning for each instruction of the module that accesses a field removed by the call, at the place
of the instruction, and no other warning. Instructions that load the token of such a field name it
as well, and they are not reported: each name is reported exactly if there is no such
instruction. -/
theorem finalize_reports (p : Recovery) (mod : Module) :
    let r := p.finalize mod
    Reports Instruction.fieldToken? mod r.mod r.journal ∧
      (Reports Instruction.namedField? mod r.mod r.journal ↔
        r.mod.LoadsNone (mod.removedFields r.mod)) :=
  ⟨p.reports_accesses mod, p.reports_names_iff mod⟩

/-- A full run that removes a field whose token is loaded, and says nothing about it. -/
theorem finalize_passes_over_token_load :
    let s := session {} hoistedLoop [.process ⟨0x02000001⟩, .process ⟨0x02000002⟩]
    let r := s.pass.finalize s.mod
    s.Succeeds ∧ s.mod.removedFields r.mod = [⟨0x04000001⟩] ∧
      r.mod.methods[0]?.bind (·.instructionAt 2) = some ⟨.loadToken, .token ⟨0x04000001⟩⟩ ∧
      r.journal.warningsAt ⟨0x06000001⟩ 2 = 0 ∧
      ¬ Reports Instruction.namedField? s.mod r.mod r.journal := by
  intro s r
  have hmentions : r.mod.mentions Instruction.namedField? (s.mod.removedFields r.mod)
      ⟨0x06000001⟩ 2 = 1 := by decide +kernel
  have hwarnings : r.journal.warningsAt ⟨0x06000001⟩ 2 = 0 := by decide +kernel
  refine ⟨by decide +kernel, by decide +kernel, by decide +kernel, hwarnings, ?_⟩
  intro hreports
  have hcount := hreports.counts ⟨0x06000001⟩ 2
  rw [hmentions, hwarnings] at hcount
  cases hcount

end Recovery

end LocalRecovery
