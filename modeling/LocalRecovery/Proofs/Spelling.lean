import LocalRecovery.Code.Shrink
import LocalRecovery.Instruction.Meaning
import Mathlib.Tactic

set_option autoImplicit false

/-! # Spellings of one instruction

What a respelled instruction does, and whether its operand fits. `Instruction.ofSlot` and
`Instruction.ofConstant` are read back by `slotAccess?` and `constant?`, so that
`Instruction.compact` keeps the meaning (`meaning_compact`). Branches are respelled by
`Instruction.widenAt` and `Instruction.shortenAt`; both touch the width only.

Which operands fit an opcode is said once, by the kind that the opcode wants
(`OperandKind.Admitted`). The operand of a compacted instruction fits wherever there was something to
compact (`fits_compact`), also where the operand was too large for the spelling before.
-/

namespace LocalRecovery

/-! ## The operands of a kind -/

/-- The operands of each kind. A slot may lie in either area; its number is bounded if it is written
in one byte. -/
inductive OperandKind.Admitted : OperandKind → Operand → Prop
  | none : Admitted .none .none
  | slot {width : Width} {operand : Operand} (area : Area) (index : UInt16)
      (names : operand = .ofSlot area index) (bound : width = .short → index ≤ 255) :
      Admitted (.slot width) operand
  | int8 (value : Int8) : Admitted .int8 (.immediate (.int8 value))
  | int32 (value : Int32) : Admitted .int32 (.immediate (.int32 value))
  | int64 (value : Int64) : Admitted .int64 (.immediate (.int64 value))
  | float64 (value : Binary64) : Admitted .float64 (.immediate (.float64 value))
  | token {reference : Reference} (name : Token) : Admitted (.token reference) (.token name)
  | target {width : Width} (index : Nat) : Admitted (.target width) (.target index)

theorem OperandKind.admits_iff {kind : OperandKind} {operand : Operand} :
    kind.admits operand = true ↔ kind.Admitted operand := by
  constructor
  · intro h
    unfold admits at h
    -- one case for each line of the definition
    split at h
    · exact .none
    · exact .slot .locals _ rfl nofun
    · exact .slot .arguments _ rfl nofun
    · exact .slot .locals _ rfl fun _ => of_decide_eq_true h
    · exact .slot .arguments _ rfl fun _ => of_decide_eq_true h
    · exact .int8 _
    · exact .int32 _
    · exact .int64 _
    · exact .float64 _
    · exact .token _
    · exact .target _
    · cases h
  · intro h
    cases h with
    | @slot width _ area index names bound =>
        subst names
        cases width with
        | short => cases area <;> exact decide_eq_true (bound rfl)
        | long => cases area <;> rfl
    | _ => rfl

/-- Whether an instruction fits is a matter of its operand and of the kind that its opcode wants. -/
theorem Instruction.fits_iff {i : Instruction} :
    i.fits = true ↔ i.opcode.operandKind.Admitted i.operand :=
  OperandKind.admits_iff

/-! ## Slots -/

theorem Operand.slotIn?_ofSlot_eq_ite (area named : Area) (index : UInt16) :
    (Operand.ofSlot named index).slotIn? area = if named = area then some index else Option.none := by
  cases area <;> cases named <;> rfl

theorem Operand.slotIn?_ofSlot (area : Area) (index : UInt16) :
    (Operand.ofSlot area index).slotIn? area = some index := by
  rw [slotIn?_ofSlot_eq_ite, if_pos rfl]

theorem Operand.eq_ofSlot {operand : Operand} {area : Area} {index : UInt16}
    (h : operand.slotIn? area = some index) : operand = .ofSlot area index := by
  cases operand <;> cases area <;> cases h <;> rfl

theorem FixedSlot.access_of_fixed? {access : SlotAccess} {fixed : FixedSlot}
    (h : access.fixed? = some fixed) : fixed.access = access := by
  rcases access with ⟨area, kind⟩
  cases area <;> cases kind <;> cases h <;> rfl

namespace Instruction

theorem slotAccess?_slotByIndex (access : SlotAccess) (index : UInt16) :
    (slotByIndex access index).slotAccess? = some (access, index) := by
  unfold slotByIndex slotAccess?
  simp only [Operand.slotIn?_ofSlot, Option.map_some]

/-- The shortest instruction for an access performs that access. -/
theorem slotAccess?_ofSlot (access : SlotAccess) (index : UInt16) :
    (ofSlot access index).slotAccess? = some (access, index) := by
  unfold ofSlot
  split
  · rename_i fixed hf
    by_cases h : index.toNat < 4
    · rw [dif_pos h]
      show some (fixed.access, UInt16.ofNat index.toNat) = _
      rw [FixedSlot.access_of_fixed? hf, UInt16.ofNat_toNat]
    · rw [dif_neg h]
      exact slotAccess?_slotByIndex access index
  · exact slotAccess?_slotByIndex access index

theorem fits_slotByIndex (access : SlotAccess) (index : UInt16) :
    (slotByIndex access index).fits = true := by
  unfold slotByIndex
  rw [fits_iff]
  by_cases h : index ≤ 255
  · rw [if_pos h]
    exact .slot access.area index rfl fun _ => h
  · rw [if_neg h]
    exact .slot access.area index rfl nofun

theorem fits_ofSlot (access : SlotAccess) (index : UInt16) :
    (ofSlot access index).fits = true := by
  unfold ofSlot
  split
  · split_ifs
    · rfl
    · exact fits_slotByIndex access index
  · exact fits_slotByIndex access index

/-! ## Constants -/

theorem slotAccess?_ofConstant (value : Int32) : (ofConstant value).slotAccess? = none := by
  unfold ofConstant
  split_ifs <;> rfl

/-- A constant within one signed byte survives being cut down to it. -/
theorem toInt32_toInt8 {value : Int32} (hl : -128 ≤ value.toInt) (hu : value.toInt ≤ 127) :
    value.toInt8.toInt32 = value := by
  rw [← Int32.toInt_inj, Int8.toInt_toInt32, Int32.toInt_toInt8]
  exact Int.bmod_eq_of_le (by omega) (by omega)

theorem ofNat_toInt {value : Int32} (h : 0 ≤ value.toInt) :
    Int32.ofNat value.toInt.toNat = value := by
  have hlt := value.toInt_lt
  rw [← Int32.toInt_inj, Int32.toInt_ofNat_of_lt (by omega), Int.toNat_of_nonneg h]

/-- The shortest instruction for a constant loads that constant. -/
theorem constant?_ofConstant (value : Int32) : (ofConstant value).constant? = some value := by
  unfold ofConstant
  split_ifs with hm hd hs
  · rw [hm]
    rfl
  · show some (Int32.ofNat value.toInt.toNat) = some value
    rw [ofNat_toInt hd.1]
  · show some value.toInt8.toInt32 = some value
    rw [toInt32_toInt8 hs.1 hs.2]
  · rfl

theorem fits_ofConstant (value : Int32) : (ofConstant value).fits = true := by
  unfold ofConstant
  split_ifs <;> rfl

/-! ## The meaning of a respelled instruction -/

theorem meaning_of_slotAccess? {i : Instruction} {access : SlotAccess} {index : UInt16}
    (h : i.slotAccess? = some (access, index)) : i.meaning = .slot access index := by
  unfold meaning
  rw [h]

theorem meaning_of_constant? {i : Instruction} {value : Int32} (hs : i.slotAccess? = none)
    (hc : i.constant? = some value) : i.meaning = .constant value := by
  unfold meaning
  rw [hs, hc]

/-- Nothing but an access to a slot means one. -/
theorem slotAccess?_of_meaning {i : Instruction} {access : SlotAccess} {index : UInt16}
    (h : i.meaning = .slot access index) : i.slotAccess? = some (access, index) := by
  unfold meaning at h
  split at h
  · rename_i hs
    injection h with ha hi
    rw [hs, ha, hi]
  · cases h
  · cases h
  · cases h

/-- Nothing but a load of a constant means one. -/
theorem constant?_of_meaning {i : Instruction} {value : Int32} (h : i.meaning = .constant value) :
    i.slotAccess? = none ∧ i.constant? = some value := by
  unfold meaning at h
  split at h
  · cases h
  · rename_i hs hc
    injection h with hv
    exact ⟨hs, by rw [hc, hv]⟩
  · cases h
  · cases h

theorem meaning_branch (condition : Condition) (width : Width) (target : Nat) :
    meaning ⟨.branch condition width, .target target⟩ = .branch condition target := rfl

theorem meaning_field (storage : Storage) (kind : AccessKind) (operand : Operand) :
    meaning ⟨.field storage kind, operand⟩ = .itself ⟨.field storage kind, operand⟩ := by
  cases operand <;> rfl

/-- A branch without a target means itself. -/
theorem meaning_targetless {condition : Condition} {width : Width} {operand : Operand}
    (h : target? ⟨.branch condition width, operand⟩ = none) :
    meaning ⟨.branch condition width, operand⟩ = .itself ⟨.branch condition width, operand⟩ := by
  cases operand with
  | target index => cases h
  | _ => rfl

theorem localIndex?_of_slotAccess? {i : Instruction} {kind : AccessKind} {index : UInt16}
    (h : i.slotAccess? = some (⟨.locals, kind⟩, index)) : i.localIndex? = some index := by
  unfold localIndex? slotIn?
  rw [h]
  exact if_pos rfl

/-- The meaning of a branch tells everything about it but its width. -/
theorem eq_of_meaning_branch {i : Instruction} {condition : Condition} {target : Nat}
    (h : i.meaning = .branch condition target) :
    ∃ width, i = ⟨.branch condition width, .target target⟩ := by
  rcases i with ⟨opcode, operand⟩
  unfold meaning at h
  split at h
  · cases h
  · cases h
  · rename_i width _ _ _ hop hod
    injection h with hc ht
    exact ⟨width, by rw [← hc, ← ht]; exact congrArg₂ Instruction.mk hop hod⟩
  · cases h

theorem eq_of_meaning_itself {i j : Instruction} (h : i.meaning = .itself j) : i = j := by
  unfold meaning at h
  split at h
  · cases h
  · cases h
  · cases h
  · injection h

/-- Compacting keeps the meaning. -/
theorem meaning_compact (i : Instruction) : i.compact.meaning = i.meaning := by
  unfold compact
  split
  · rename_i access index hs
    rw [meaning_of_slotAccess? (slotAccess?_ofSlot access index), meaning_of_slotAccess? hs]
  · rename_i value hs hc
    rw [meaning_of_constant? (slotAccess?_ofConstant value) (constant?_ofConstant value),
      meaning_of_constant? hs hc]
  · rfl

/-- Branches have no shortest spelling of their own. -/
theorem compact_branch (condition : Condition) (width : Width) (operand : Operand) :
    compact ⟨.branch condition width, operand⟩ = ⟨.branch condition width, operand⟩ := rfl

/-- Only the branch itself compacts to a branch. -/
theorem eq_of_compact_branch {i : Instruction} {condition : Condition} {width : Width}
    {target : Nat} (h : i.compact = ⟨.branch condition width, .target target⟩) :
    i = ⟨.branch condition width, .target target⟩ := by
  have hmeaning : i.meaning = .branch condition target := by
    rw [← i.meaning_compact, h, meaning_branch]
  obtain ⟨width', rfl⟩ := eq_of_meaning_branch hmeaning
  rw [compact_branch] at h
  exact h

theorem meaning_widenAt (offsets : Array Nat) (index : Nat) (i : Instruction) :
    (i.widenAt offsets index).meaning = i.meaning := by
  unfold widenAt
  split
  · split_ifs
    · rfl
    · rw [meaning_branch, meaning_branch]
  · rfl

theorem meaning_shortenAt (offsets : Array Nat) (index : Nat) (i : Instruction) :
    (i.shortenAt offsets index).meaning = i.meaning := by
  unfold shortenAt
  split
  · split_ifs
    · rw [meaning_branch, meaning_branch]
    · rfl
  · rfl

/-! ## Operands that fit -/

/-- An operand that fits, or that would fit a wider spelling of the same access: a short access to a
slot of its own area, whatever the number of the slot. -/
def Respellable (i : Instruction) : Prop :=
  i.fits = true ∨
    ∃ (access : SlotAccess) (index : UInt16), i = ⟨.slot access .short, .ofSlot access.area index⟩

theorem fits_compact {i : Instruction} (h : i.Respellable) : i.compact.fits = true := by
  unfold compact
  split
  · exact fits_ofSlot _ _
  · exact fits_ofConstant _
  · rename_i hs _
    rcases h with h | ⟨access, index, rfl⟩
    · exact h
    · simp [slotAccess?, Operand.slotIn?_ofSlot] at hs

theorem fits_widenAt (offsets : Array Nat) (index : Nat) (i : Instruction) :
    (i.widenAt offsets index).fits = i.fits := by
  unfold widenAt
  split
  · split_ifs <;> rfl
  · rfl

theorem fits_shortenAt (offsets : Array Nat) (index : Nat) (i : Instruction) :
    (i.shortenAt offsets index).fits = i.fits := by
  unfold shortenAt
  split
  · split_ifs <;> rfl
  · rfl

end Instruction

end LocalRecovery
