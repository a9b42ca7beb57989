import LocalRecovery.Proofs.Respelling

set_option autoImplicit false

/-! # What can be built can be read

`Instruction.build` judges an operand by the kind that the opcode wants. The readers (`localIndex?`,
`argumentIndex?`, `constant?`, `target?`, `fieldToken?`) judge the opcode itself. For constants,
branches and fields the two agree: whatever is built is read. For slots the kind knows the width
only and not the area, so that a load of a local variable may be built with the number of an
argument. Nothing reads such an instruction (`Instruction.crossed`), and shrinking passes over it.

What an access to a slot looks like after building is said once (`slotAccess?_cases`).
-/

namespace LocalRecovery

/-! ## Opcodes and operands of different areas -/

/-- The other one of the two areas. -/
def Area.other : Area → Area
  | .locals => .arguments
  | .arguments => .locals

/-- The area of the slots that an opcode accesses, whatever its spelling. -/
def Opcode.area? : Opcode → Option Area
  | .fixedSlot fixed _ => some fixed.access.area
  | .slot access _ => some access.area
  | _ => none

/-- Does the opcode access one area while the operand names a slot of the other? -/
def Instruction.crossed (i : Instruction) : Bool :=
  match i.opcode with
  | .slot access _ => (i.operand.slotIn? access.area.other).isSome
  | _ => false

theorem Area.other_ne (area : Area) : area.other ≠ area := by
  cases area <;> decide

theorem Area.eq_or_eq_other (area named : Area) : named = area ∨ named = area.other := by
  cases area <;> cases named <;> simp [Area.other]

namespace Instruction

/-- What is built has the given opcode and operand, and they fit. -/
theorem of_build_eq_ok {opcode : Opcode} {operand : Operand} {i : Instruction}
    (h : build opcode operand = .ok i) : i = ⟨opcode, operand⟩ ∧ i.fits = true := by
  unfold build at h
  split_ifs at h with hfits
  injection h with heq
  subst heq
  exact ⟨rfl, hfits⟩

/-! ## Slots -/

/-- An access to a slot whose operand fits is read, unless the operand names a slot of the other
area. -/
theorem slotAccess?_cases {i : Instruction} {area : Area} (hfits : i.fits = true)
    (harea : i.opcode.area? = some area) :
    (i.crossed = false ∧
      ∃ (access : SlotAccess) (index : UInt16),
        access.area = area ∧ i.slotAccess? = some (access, index)) ∨
    (i.crossed = true ∧ i.slotAccess? = none) := by
  rcases i with ⟨opcode, operand⟩
  cases opcode with
  | fixedSlot fixed index =>
      -- the slot is a part of the opcode, and the operand plays no part
      left
      injection harea with harea
      exact ⟨rfl, fixed.access, UInt16.ofNat index, harea, rfl⟩
  | slot access width =>
      injection harea with harea
      cases fits_iff.mp hfits with
      | slot named index names =>
          subst names
          rcases access.area.eq_or_eq_other named with rfl | rfl
          · left
            refine ⟨?_, access, index, harea, ?_⟩
            · simp [crossed, Operand.slotIn?_ofSlot_eq_ite, access.area.other_ne.symm]
            · simp [slotAccess?, Operand.slotIn?_ofSlot]
          · right
            constructor
            · simp [crossed, Operand.slotIn?_ofSlot]
            · simp [slotAccess?, Operand.slotIn?_ofSlot_eq_ite, access.area.other_ne]
  | _ => cases harea

theorem isSome_slotIn?_iff {i : Instruction} {area : Area} (hfits : i.fits = true)
    (harea : i.opcode.area? = some area) :
    (i.slotIn? area).isSome = true ↔ ¬ i.crossed = true := by
  unfold slotIn?
  rcases slotAccess?_cases hfits harea with ⟨hcrossed, access, index, rfl, hread⟩ | ⟨hcrossed, hread⟩
  · simp [hcrossed, hread]
  · simp [hcrossed, hread]

/-- An access to a slot is neither a load of a constant nor a branch. -/
theorem constant?_target?_of_area {i : Instruction} {area : Area}
    (harea : i.opcode.area? = some area) : i.constant? = none ∧ i.target? = none := by
  rcases i with ⟨opcode, operand⟩
  cases opcode with
  | fixedSlot => exact ⟨rfl, rfl⟩
  | slot => exact ⟨rfl, rfl⟩
  | _ => cases harea

theorem exists_area_of_crossed {i : Instruction} (h : i.crossed = true) :
    ∃ area, i.opcode.area? = some area := by
  rcases i with ⟨opcode, operand⟩
  cases opcode with
  | slot access width => exact ⟨access.area, rfl⟩
  | _ => cases h

/-- There is nothing to compact in a crossed instruction. -/
theorem compact_of_crossed {i : Instruction} (hfits : i.fits = true) (h : i.crossed = true) :
    i.compact = i := by
  obtain ⟨area, harea⟩ := exists_area_of_crossed h
  rcases slotAccess?_cases hfits harea with ⟨hnot, _⟩ | ⟨_, hread⟩
  · rw [h] at hnot
    cases hnot
  · unfold compact
    rw [hread, (constant?_target?_of_area harea).1]

/-! ## Constants, branches and fields -/

theorem exists_constant?_of_fits {form : ConstantForm} {operand : Operand}
    (hfits : fits ⟨.constant form, operand⟩ = true) :
    ∃ value, constant? ⟨.constant form, operand⟩ = some value := by
  cases form with
  | minusOne => exact ⟨-1, rfl⟩
  | digit value => exact ⟨Int32.ofNat value, rfl⟩
  | short =>
      cases fits_iff.mp hfits with
      | int8 value => exact ⟨value.toInt32, rfl⟩
  | long =>
      cases fits_iff.mp hfits with
      | int32 value => exact ⟨value, rfl⟩

theorem isSome_target?_of_fits {condition : Condition} {width : Width} {operand : Operand}
    (hfits : fits ⟨.branch condition width, operand⟩ = true) :
    (target? ⟨.branch condition width, operand⟩).isSome = true := by
  cases fits_iff.mp hfits with
  | target index => rfl

theorem isSome_fieldToken?_of_fits {storage : Storage} {kind : AccessKind} {operand : Operand}
    (hfits : fits ⟨.field storage kind, operand⟩ = true) :
    (fieldToken? ⟨.field storage kind, operand⟩).isSome = true := by
  cases fits_iff.mp hfits with
  | token name => rfl

/-! ## What shrinking makes of them -/

/-- Instructions of one meaning have one compact form, branches apart. -/
theorem compact_eq_of_meaning {i j : Instruction} (h : i.meaning = j.meaning)
    (htarget : i.target? = none) : i.compact = j.compact := by
  cases hm : j.meaning with
  | slot access index =>
      rw [compact_of_slotAccess? (slotAccess?_of_meaning (h.trans hm)),
        compact_of_slotAccess? (slotAccess?_of_meaning hm)]
  | constant value =>
      obtain ⟨hsi, hci⟩ := constant?_of_meaning (h.trans hm)
      obtain ⟨hsj, hcj⟩ := constant?_of_meaning hm
      rw [compact_of_constant? hsi hci, compact_of_constant? hsj hcj]
  | branch condition target =>
      obtain ⟨width, rfl⟩ := eq_of_meaning_branch (h.trans hm)
      cases htarget
  | itself k =>
      rw [eq_of_meaning_itself (h.trans hm), eq_of_meaning_itself hm]

end Instruction

/-- Shrinking puts the compact form in the place of every instruction without a target. -/
theorem Code.getElem?_shrink_of_targetless {code : Code} {index : Nat} {i : Instruction}
    (hi : code[index]? = some i) (htarget : i.target? = none) :
    code.shrink[index]? = some i.compact := by
  have hmeaning := code.map_meaning_getElem?_shrink index
  rw [hi, Option.map_some] at hmeaning
  obtain ⟨j, hj, hsame⟩ := Option.map_eq_some_iff.mp hmeaning
  have hcompact : j.compact = j := code.compact_of_mem_shrink j (List.mem_of_getElem? hj)
  rw [hj, Instruction.compact_eq_of_meaning hsame.symm htarget, hcompact]

namespace Instruction

/-- **What can be built can be read, crossed slots apart.** An access to a local variable or to an
argument, in any spelling, has the number of its slot read exactly if it is not crossed. Every load
of a constant has its value read, every branch its target, every access to a field its token. Hence
shrinking puts the shortest spelling in the place of every built access to a slot that is not crossed
and of every built load of a constant. A crossed access stays as it is. -/
theorem build_readable (opcode : Opcode) (operand : Operand) (i : Instruction)
    (hok : build opcode operand = .ok i) :
    (opcode.area? = some .locals → (i.localIndex?.isSome = true ↔ ¬ i.crossed = true)) ∧
    (opcode.area? = some .arguments → (i.argumentIndex?.isSome = true ↔ ¬ i.crossed = true)) ∧
    (∀ form, opcode = .constant form → i.constant?.isSome = true) ∧
    (∀ condition width, opcode = .branch condition width → i.target?.isSome = true) ∧
    (∀ storage kind, opcode = .field storage kind → i.fieldToken?.isSome = true) ∧
    ∀ (code : Code) (index : Nat), code[index]? = some i →
      (∀ area, opcode.area? = some area → ¬ i.crossed = true →
        ∃ (access : SlotAccess) (slot : UInt16), i.slotAccess? = some (access, slot) ∧
          code.shrink[index]? = some (ofSlot access slot)) ∧
      (∀ form, opcode = .constant form →
        ∃ value, i.constant? = some value ∧ code.shrink[index]? = some (ofConstant value)) ∧
      (i.crossed = true → code.shrink[index]? = some i) := by
  obtain ⟨rfl, hfits⟩ := of_build_eq_ok hok
  refine ⟨isSome_slotIn?_iff hfits, isSome_slotIn?_iff hfits, ?_, ?_, ?_, ?_⟩
  · rintro form rfl
    obtain ⟨value, hread⟩ := exists_constant?_of_fits hfits
    rw [hread, Option.isSome_some]
  · rintro condition width rfl
    exact isSome_target?_of_fits hfits
  · rintro storage kind rfl
    exact isSome_fieldToken?_of_fits hfits
  · intro code index hi
    refine ⟨?_, ?_, ?_⟩
    · intro area harea hnot
      rcases slotAccess?_cases hfits harea with ⟨_, access, slot, _, hread⟩ | ⟨hcrossed, _⟩
      · refine ⟨access, slot, hread, ?_⟩
        rw [Code.getElem?_shrink_of_targetless hi (constant?_target?_of_area harea).2,
          compact_of_slotAccess? hread]
      · exact absurd hcrossed hnot
    · rintro form rfl
      obtain ⟨value, hread⟩ := exists_constant?_of_fits hfits
      refine ⟨value, hread, ?_⟩
      rw [Code.getElem?_shrink_of_targetless hi rfl, compact_of_constant? rfl hread]
    · intro hcrossed
      obtain ⟨area, harea⟩ := exists_area_of_crossed hcrossed
      rw [Code.getElem?_shrink_of_targetless hi (constant?_target?_of_area harea).2,
        compact_of_crossed hfits hcrossed]

/-- The largest slot that a short spelling takes. -/
theorem build_readable_lastShort :
    let i : Instruction := ⟨.slot ⟨.locals, .address⟩ .short, .localSlot 255⟩
    build i.opcode i.operand = .ok i ∧ i.opcode.area? = some .locals ∧ i.crossed = false ∧
      i.localIndex?.isSome = true ∧ (Code.shrink [i])[0]? = some (ofSlot ⟨.locals, .address⟩ 255) := by
  intro i
  have hok : build i.opcode i.operand = .ok i := by decide
  obtain ⟨hlocal, _, _, _, _, hshrink⟩ := build_readable i.opcode i.operand i hok
  obtain ⟨access, slot, hread, hplace⟩ := (hshrink [i] 0 rfl).1 .locals rfl (by decide)
  have hslot : i.slotAccess? = some (⟨.locals, .address⟩, 255) := by decide
  rw [hslot] at hread
  injection hread with hpair
  injection hpair with haccess hindex
  subst haccess hindex
  exact ⟨hok, rfl, rfl, (hlocal rfl).mpr (by decide), hplace⟩

/-- Not every instruction that can be built can be read: a load of a local variable is built with
the number of an argument, no reader understands it, and shrinking leaves it in its long spelling. -/
theorem build_crossed_unread :
    let i : Instruction := ⟨.slot ⟨.locals, .read⟩ .long, .argumentSlot 3⟩
    build i.opcode i.operand = .ok i ∧ i.opcode.area? = some .locals ∧
      i.localIndex? = none ∧ i.argumentIndex? = none ∧ (Code.shrink [i])[0]? = some i := by
  intro i
  refine ⟨by decide, rfl, rfl, rfl, ?_⟩
  exact Code.getElem?_shrink_of_itself rfl rfl

end Instruction

end LocalRecovery
