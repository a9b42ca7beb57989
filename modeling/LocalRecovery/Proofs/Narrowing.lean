import LocalRecovery.Proofs.Bindings
import LocalRecovery.Proofs.Encodable
import LocalRecovery.Proofs.Handled

set_option autoImplicit false

/-! # Calls only make code smaller

An access to a static field takes five bytes and the access to a variable that replaces it four, in
its longest spelling. So the code that a walk leaves is narrower than the code before, instruction
by instruction, and no short branch loses its target (`Encodable.handled`). That holds before the
code is shrunk, and it is all there is if the walk breaks off.

Shrinking code that can be written down makes nothing larger either (`narrower_shrink`): compacting
an operand that fits never takes more bytes, so that every short branch still reaches and nothing is
left to widen; shortening is narrowing by itself.
-/

namespace LocalRecovery

/-! ## Sizes of single instructions -/

namespace Opcode

theorem size_fixedSlot (fixed : FixedSlot) (index : Fin 4) :
    (Opcode.fixedSlot fixed index).size = 1 := by
  cases fixed <;> revert index <;> decide

theorem size_slot_short (access : SlotAccess) : (Opcode.slot access .short).size = 2 := by
  rcases access with ⟨area, kind⟩
  cases area <;> cases kind <;> rfl

theorem size_slot_long (access : SlotAccess) : (Opcode.slot access .long).size = 4 := by
  rcases access with ⟨area, kind⟩
  cases area <;> cases kind <;> rfl

theorem size_field (storage : Storage) (kind : AccessKind) :
    (Opcode.field storage kind).size = 5 := by
  cases storage <;> cases kind <;> rfl

theorem one_le_size (op : Opcode) : 1 ≤ op.size := by
  unfold size Encoding.size
  split_ifs <;> omega

end Opcode

theorem FixedSlot.fixed?_access (fixed : FixedSlot) : fixed.access.fixed? = some fixed := by
  cases fixed <;> rfl

namespace Instruction

theorem size_slotByIndex (access : SlotAccess) (index : UInt16) :
    (slotByIndex access index).size = if index ≤ 255 then 2 else 4 := by
  unfold slotByIndex size
  split_ifs
  · exact Opcode.size_slot_short access
  · exact Opcode.size_slot_long access

/-- The shortest instruction for an access takes one byte, or two or four as the slot demands. -/
theorem size_ofSlot_le (access : SlotAccess) (index : UInt16) :
    (ofSlot access index).size ≤ if index ≤ 255 then 2 else 4 := by
  rw [← size_slotByIndex access index]
  unfold ofSlot
  split
  · split_ifs
    · exact (Opcode.size_fixedSlot _ _).trans_le (Opcode.one_le_size _)
    · exact Nat.le_refl _
  · exact Nat.le_refl _

theorem size_ofSlot_fixed (fixed : FixedSlot) (index : Fin 4) :
    (ofSlot fixed.access (UInt16.ofNat index)).size = 1 := by
  have hlt : (UInt16.ofNat index).toNat < 4 := by
    revert index
    decide
  unfold ofSlot
  rw [FixedSlot.fixed?_access]
  simp only [hlt, dif_pos]
  exact Opcode.size_fixedSlot _ _

/-- An access whose operand fits takes at least as many bytes as the shortest one. -/
theorem size_ofSlot_le_size {i : Instruction} {access : SlotAccess} {index : UInt16}
    (hfits : i.fits = true) (h : i.slotAccess? = some (access, index)) :
    (ofSlot access index).size ≤ i.size := by
  rcases i with ⟨opcode, operand⟩
  unfold slotAccess? at h
  split at h
  · rename_i fixed slot hop
    simp only at hop
    subst hop
    injection h with h
    injection h with ha hi
    subst ha hi
    show _ ≤ (Opcode.fixedSlot fixed slot).size
    rw [size_ofSlot_fixed, Opcode.size_fixedSlot]
  · rename_i access' width hop
    simp only at hop
    subst hop
    obtain ⟨index', hindex, heq⟩ := Option.map_eq_some_iff.mp h
    injection heq with ha hi
    subst ha hi
    have hle := size_ofSlot_le access' index'
    cases width with
    | short =>
        have hbound : index' ≤ 255 := by
          cases fits_iff.mp hfits with
          | slot named slot names bound =>
              rw [names, Operand.slotIn?_ofSlot_eq_ite] at hindex
              split_ifs at hindex
              cases hindex
              exact bound rfl
        rw [if_pos hbound] at hle
        exact hle.trans_eq (Opcode.size_slot_short access').symm
    | long =>
        have hlong : (Opcode.slot access' .long).size = 4 := Opcode.size_slot_long access'
        show _ ≤ (Opcode.slot access' .long).size
        split_ifs at hle <;> omega
  · cases h

/-- The shortest instruction for a constant takes one byte or two if the constant is within one
signed byte. -/
theorem size_ofConstant_le (value : Int32) :
    (ofConstant value).size ≤ if -128 ≤ value.toInt ∧ value.toInt ≤ 127 then 2 else 5 := by
  have hone : ∀ d : Fin 9, (Opcode.constant (.digit d)).size ≤ 2 := by decide
  unfold ofConstant
  split_ifs with hm hbyte hd hbyte
  · decide
  · decide
  · exact hone _
  · exact (hone _).trans (by decide)
  · exact Nat.le_refl 2
  · exact Nat.le_refl 5

theorem size_ofConstant_digit (value : Fin 9) :
    (ofConstant (Int32.ofNat value)).size = 1 := by
  revert value
  decide

/-- A constant takes at least as many bytes as the shortest instruction for it. -/
theorem size_ofConstant_le_size {i : Instruction} {value : Int32} (h : i.constant? = some value) :
    (ofConstant value).size ≤ i.size := by
  rcases i with ⟨opcode, operand⟩
  unfold constant? at h
  split at h
  · cases h
    exact Opcode.one_le_size _
  · cases h
    exact (size_ofConstant_digit _).trans_le (Opcode.one_le_size _)
  · rename_i byte hop _
    cases h
    have hle := size_ofConstant_le byte.toInt32
    have hl := byte.le_toInt
    have hu := byte.toInt_lt
    rw [Int8.toInt_toInt32, if_pos (by omega)] at hle
    rw [show opcode = _ from hop]
    exact hle
  · rename_i hop _
    cases h
    have hle := size_ofConstant_le value
    rw [show opcode = _ from hop]
    show _ ≤ 5
    split_ifs at hle <;> omega
  · cases h

/-- Compacting an instruction whose operand fits makes it no larger. -/
theorem size_compact_le {i : Instruction} (h : i.fits = true) : i.compact.size ≤ i.size := by
  unfold compact
  split
  · rename_i hs
    exact size_ofSlot_le_size h hs
  · rename_i hc
    exact size_ofConstant_le_size hc
  · exact Nat.le_refl _

end Instruction

/-! ## Shrinking code that can be written down -/

theorem settle_eq_self {α : Type} {step : α → α} {measure : α → Nat} {x : α} (h : step x = x) :
    settle step measure x = x := by
  rw [settle, h, if_neg (Nat.lt_irrefl _)]

namespace Code

theorem Narrower.refl (code : Code) : Narrower code code :=
  List.forall₂_same.mpr fun _ _ => Nat.le_refl _

theorem Narrower.trans {first second third : Code} (h₁ : Narrower first second)
    (h₂ : Narrower second third) : Narrower first third := by
  refine forall₂_trans ?_ h₁ h₂
  intro i j k hij hjk
  exact Nat.le_trans hij hjk

/-- One instruction that is smaller makes the whole smaller. -/
theorem Narrower.size_lt {narrow wide : Code} (h : Narrower narrow wide) {k : Nat}
    {i j : Instruction} (hi : narrow[k]? = some i) (hj : wide[k]? = some j)
    (hlt : i.size < j.size) : narrow.size < wide.size := by
  induction h generalizing k with
  | nil => cases hi
  | cons hle hrest ih =>
      rw [size_cons, size_cons]
      cases k with
      | zero =>
          cases hi
          cases hj
          have hsize := Narrower.size_le hrest
          omega
      | succ k =>
          have hsize := ih hi hj
          omega

/-- Where every short branch reaches there is nothing to widen. -/
theorem widenSweep_of_reach {code : Code} (h : code.ShortBranchesReach) :
    widenSweep code = code := by
  unfold widenSweep
  refine List.ext_getElem? fun k => ?_
  rw [List.getElem?_mapIdx]
  cases hk : code[k]? with
  | none => rfl
  | some i =>
      rw [Option.map_some]
      unfold Instruction.widenAt
      split
      · rw [if_pos (h k _ _ hk)]
      · rfl

theorem widen_of_reach {code : Code} (h : code.ShortBranchesReach) : widen code = code :=
  settle_eq_self (widenSweep_of_reach h)

theorem narrower_shorten (code : Code) : Narrower (shorten code) code :=
  settle_preserves (P := fun x => Narrower x code)
    (fun x hx => x.narrower_shortenSweep.trans hx) (Narrower.refl code)

theorem narrower_compact {code : Code} (h : ∀ i ∈ code, i.fits = true) :
    Narrower (code.map Instruction.compact) code :=
  List.forall₂_map_left_iff.mpr
    (List.forall₂_same.mpr fun i hi => Instruction.size_compact_le (h i hi))

/-- Compacting leaves branches alone and brings their targets closer. -/
theorem ShortBranchesReach.compact {code : Code} (h : code.ShortBranchesReach)
    (hfits : ∀ i ∈ code, i.fits = true) :
    ShortBranchesReach (code.map Instruction.compact) := by
  intro index target condition hi
  rw [List.getElem?_map] at hi
  obtain ⟨i, hcode, hcompact⟩ := Option.map_eq_some_iff.mp hi
  rw [Instruction.eq_of_compact_branch hcompact] at hcode
  have hlt : index < code.length := (List.getElem?_eq_some_iff.mp hcode).1
  exact reaches_of_narrower (narrower_compact hfits) hlt (h index target condition hcode)

/-- **Shrinking encodable code makes no instruction larger.** -/
theorem narrower_shrink {code : Code} (h : code.Encodable) : Narrower code.shrink code := by
  have hreach := ShortBranchesReach.compact h.2 h.1
  unfold shrink
  rw [widen_of_reach hreach]
  exact (narrower_shorten _).trans (narrower_compact h.1)

theorem Encodable.shrink {code : Code} (h : code.Encodable) : code.shrink.Encodable :=
  ⟨fits_of_mem_shrink fun i hi => Or.inl (h.1 i hi), code.shortBranchesReach_shrink⟩

instance (code : Code) : Decidable code.Encodable :=
  decidable_of_iff ((∀ i ∈ code, i.fits = true) ∧ widenSweep code = code)
    (and_congr_right fun _ => ⟨shortBranchesReach_of_fixed, widenSweep_of_reach⟩)

end Code

/-! ## What a walk leaves -/

namespace Walk

variable {candidates : List Candidate} {bindings : List Binding} {method : Token}

theorem Handled.size_le {i i' : Instruction} (h : Handled candidates bindings method i i') :
    i'.size ≤ i.size := by
  cases h with
  | kept => exact Nat.le_refl _
  | redirected =>
      show (Opcode.slot _ .long).size ≤ (Opcode.field _ _).size
      rw [Opcode.size_slot_long, Opcode.size_field]
      decide

theorem Handled.fits {i i' : Instruction} (h : Handled candidates bindings method i i')
    (hi : i.fits = true) : i'.fits = true := by
  cases h with
  | kept => exact hi
  | redirected => rfl

end Walk

namespace Code

variable {candidates : List Candidate} {bindings : List Binding} {method : Token}

theorem narrower_of_handled {code code' : Code}
    (h : List.Forall₂ (Walk.Handled candidates bindings method) code code') :
    Narrower code' code :=
  List.Forall₂.flip (h.imp fun _ _ hi => hi.size_le)

/-- Handling instructions keeps code encodable, without any respelling. -/
theorem Encodable.handled {code code' : Code} (hcode : code.Encodable)
    (h : List.Forall₂ (Walk.Handled candidates bindings method) code code') :
    code'.Encodable := by
  constructor
  · intro i' hi'
    obtain ⟨i, hi, hhandled⟩ := exists_of_forall₂_right h hi'
    exact hhandled.fits (hcode.1 i hi)
  · intro index target condition hi'
    have hlt : index < code.length := h.length_eq ▸ (List.getElem?_eq_some_iff.mp hi').1
    obtain ⟨i, hi⟩ : ∃ i, code[index]? = some i := ⟨_, List.getElem?_eq_getElem hlt⟩
    have hhandled := forall₂_getElem? h hi hi'
    -- a branch is no access to a variable, so it is one that was kept
    cases hhandled with
    | kept =>
        exact reaches_of_narrower (narrower_of_handled h) hlt (hcode.2 index target condition hi)

end Code

/-! ## Bodies -/

/-- Every instruction of the body can be built, and every short branch lands within reach. -/
def Body.Encodable (b : Body) : Prop :=
  (∀ i ∈ b.code, Instruction.build i.opcode i.operand = .ok i) ∧
  ∀ (index : Nat) (condition : Condition) (operand : Operand),
    b.code[index]? = some ⟨.branch condition .short, operand⟩ → b.code.Lands index operand

theorem Body.encodable_iff (b : Body) : b.Encodable ↔ b.code.Encodable :=
  b.code.encodable_iff.symm

instance (b : Body) : Decidable b.Encodable :=
  decidable_of_iff b.code.Encodable b.encodable_iff.symm

namespace Body.Handled

variable {candidates : List Candidate} {bindings : List Binding} {method : Token} {b b' : Body}

/-- The code goes through an encodable stage, in which the accesses have been redirected and nothing
has been respelled. Each of the two steps narrows it. -/
theorem exists_stage (h : b.Handled candidates bindings method b') (hb : b.Encodable) :
    ∃ code : Code, List.Forall₂ (Walk.Handled candidates bindings method) b.code code ∧
      (b'.code = code ∨ b'.code = code.shrink) ∧ b'.code.Encodable ∧
      Code.Narrower b'.code code ∧ Code.Narrower code b.code := by
  obtain ⟨code, hcode, hspelling⟩ := h
  have hstage := (b.encodable_iff.mp hb).handled hcode
  refine ⟨code, hcode, hspelling, ?_, ?_, Code.narrower_of_handled hcode⟩
  · rcases hspelling with heq | heq
    · rw [heq]
      exact hstage
    · rw [heq]
      exact hstage.shrink
  · rcases hspelling with heq | heq
    · rw [heq]
      exact Code.Narrower.refl code
    · rw [heq]
      exact Code.narrower_shrink hstage

/-- An access to a static field that is no longer there has made room. -/
theorem size_lt (h : b.Handled candidates bindings method b') (hb : b.Encodable) {index : Nat}
    {kind : AccessKind} {operand : Operand}
    (hi : b.code[index]? = some ⟨.field .static kind, operand⟩)
    (hne : b'.code[index]? ≠ b.code[index]?) : b'.code.size < b.code.size := by
  obtain ⟨code, hcode, hspelling, _, hsecond, hfirst⟩ := h.exists_stage hb
  have hlt : index < code.length := hcode.length_eq ▸ (List.getElem?_eq_some_iff.mp hi).1
  obtain ⟨j, hj⟩ : ∃ j, code[index]? = some j := ⟨_, List.getElem?_eq_getElem hlt⟩
  cases forall₂_getElem? hcode hi hj with
  | kept =>
      -- an access that was kept is not respelled either
      have hstays := Code.getElem?_shrink_of_itself hj (Instruction.meaning_field _ _ _)
      refine absurd ?_ hne
      rw [hi]
      rcases hspelling with heq | heq
      · rw [heq, hj]
      · rw [heq, hstays]
  | redirected =>
      have hsmaller : (Opcode.slot ⟨.locals, kind⟩ .long).size
          < (Opcode.field .static kind).size := by
        rw [Opcode.size_slot_long, Opcode.size_field]
        decide
      calc b'.code.size ≤ code.size := hsecond.size_le
        _ < b.code.size := hfirst.size_lt hj hi hsmaller

end Body.Handled

/-! ## Calls -/

namespace Recovery

/-- **Calls keep bodies encodable and never make them larger.** Let every body of a module be
encodable, and let `process` be called in any state and with any token. Whatever it returns, every
body is encodable afterwards and takes no more bytes than before. It takes fewer if some access to a
static field in it is no longer what it was. -/
theorem process_keeps_encodable (p : Recovery) (mod : Module) (token : Token)
    (h : ∀ m ∈ mod.methods, ∀ b, m.body = some b → b.Encodable) :
    let s := p.process mod token
    s.mod.methods.length = mod.methods.length ∧
    ∀ (k : Nat) (m m' : Method), mod.methods[k]? = some m → s.mod.methods[k]? = some m' →
      m'.body.isSome = m.body.isSome ∧
      ∀ b b' : Body, m.body = some b → m'.body = some b' →
        b'.Encodable ∧ b'.code.size ≤ b.code.size ∧
        ∀ (index : Nat) (kind : AccessKind) (operand : Operand),
          b.code[index]? = some ⟨.field .static kind, operand⟩ →
          b'.code[index]? ≠ b.code[index]? → b'.code.size < b.code.size := by
  intro s
  have hmethods := p.process_handled_methods mod token
  refine ⟨hmethods.length_eq.symm, ?_⟩
  intro k m m' hm hm'
  obtain ⟨_, hbody⟩ := forall₂_getElem? hmethods hm hm'
  refine ⟨isSome_eq_of_rel hbody, ?_⟩
  intro b b' hb hb'
  rw [hb, hb'] at hbody
  obtain ⟨hhandled⟩ := hbody
  have hencodable := h m (List.mem_of_getElem? hm) b hb
  obtain ⟨_, _, _, hafter, hsecond, hfirst⟩ := hhandled.exists_stage hencodable
  refine ⟨b'.encodable_iff.mpr hafter, (hsecond.trans hfirst).size_le, ?_⟩
  intro index kind operand hi hne
  exact hhandled.size_lt hencodable hi hne

theorem process_keeps_encodable_hoistedLoop :
    let s := process {} hoistedLoop ⟨0x02000002⟩
    (∀ m ∈ hoistedLoop.methods, ∀ b, m.body = some b → b.Encodable) ∧
      ∃ m' b', s.mod.methods[0]? = some m' ∧ m'.body = some b' ∧ b'.Encodable ∧
        b'.code.size < 17 := by
  intro s
  have h : ∀ m ∈ hoistedLoop.methods, ∀ b, m.body = some b → b.Encodable := by decide
  have hrewritten : (s.mod.methods[0]?.bind Method.body).bind (fun b => b.code[0]?)
      ≠ some ⟨.field .static .write, .token ⟨0x04000001⟩⟩ := by decide +kernel
  refine ⟨h, ?_⟩
  obtain ⟨hlength, hmethods⟩ := process_keeps_encodable {} hoistedLoop ⟨0x02000002⟩ h
  have hk : 0 < s.mod.methods.length := by rw [hlength]; decide
  have hm' := List.getElem?_eq_getElem hk
  obtain ⟨hbody, hcode⟩ := hmethods 0 _ _ rfl hm'
  obtain ⟨b', hb'⟩ := Option.isSome_iff_exists.mp (hbody.trans rfl)
  obtain ⟨hafter, _, hsmaller⟩ := hcode _ b' rfl hb'
  rw [hm', Option.bind_some, hb', Option.bind_some] at hrewritten
  exact ⟨_, b', hm', hb', hafter, hsmaller 0 .write _ rfl hrewritten⟩

end Recovery

end LocalRecovery
