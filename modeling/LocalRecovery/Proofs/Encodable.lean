import LocalRecovery.Proofs.Layout
import LocalRecovery.Proofs.Shrink

set_option autoImplicit false

/-! # Shrunk code can be written down as bytes

Widening ends with every short branch within reach. Shortening then judges all long branches of a
sweep by the offsets at its start, which are stale as soon as the first of them has become short. A
sweep makes no instruction larger, however, so that whatever reached by the old offsets reaches by
the new ones (`reaches_of_narrower`): the short branches stay within reach over all sweeps
(`shortBranchesReach_shrink`).

A branch without a target has nothing to reach. It stays as it is, whatever its width.
-/

namespace LocalRecovery

/-- Building an instruction succeeds exactly with operands that fit. -/
theorem Instruction.build_eq_ok_iff (i : Instruction) :
    Instruction.build i.opcode i.operand = .ok i ↔ i.fits = true := by
  unfold Instruction.build
  split_ifs with h
  · exact ⟨fun _ => h, fun _ => rfl⟩
  · exact ⟨fun hok => (by cases hok), fun hfits => absurd hfits h⟩

theorem Opcode.size_branch_short_lt (condition : Condition) :
    (Opcode.branch condition .short).size < (Opcode.branch condition .long).size := by
  cases condition <;> decide

theorem Instruction.size_shortenAt_le (offsets : Array Nat) (index : Nat) (i : Instruction) :
    (i.shortenAt offsets index).size ≤ i.size := by
  unfold Instruction.shortenAt
  split
  · split_ifs
    · exact Nat.le_of_lt (Opcode.size_branch_short_lt _)
    · exact Nat.le_refl _
  · exact Nat.le_refl _

namespace Code

/-! ## Widening puts every short branch within reach -/

/-- Every short branch reaches its target. -/
def ShortBranchesReach (code : Code) : Prop :=
  ∀ (index target : Nat) (condition : Condition),
    code[index]? = some ⟨.branch condition .short, .target target⟩ →
    reaches code.offsets index target (.branch condition .short) = true

theorem shortBranchesReach_of_fixed {code : Code} (h : widenSweep code = code) :
    code.ShortBranchesReach := by
  intro index target condition hi
  have hfix : (widenSweep code)[index]? = code[index]? := by rw [h]
  unfold widenSweep at hfix
  rw [List.getElem?_mapIdx, hi, Option.map_some, Option.some.injEq] at hfix
  by_contra hr
  simp [Instruction.widenAt, hr] at hfix

theorem shortBranchesReach_widen (code : Code) : (widen code).ShortBranchesReach :=
  shortBranchesReach_of_fixed code.widenSweep_widen

/-! ## Shortening keeps them there -/

theorem narrower_shortenSweep (code : Code) : Narrower (shortenSweep code) code :=
  forall₂_mapIdx code _ (Instruction.size_shortenAt_le code.offsets)

end Code

/-- A short branch after a sweep was one before, or is a long one that the sweep found to reach. -/
theorem Instruction.of_shortenAt_short {offsets : Array Nat} {index target : Nat}
    {condition : Condition} {i : Instruction}
    (h : i.shortenAt offsets index = ⟨.branch condition .short, .target target⟩) :
    i = ⟨.branch condition .short, .target target⟩ ∨
      Code.reaches offsets index target (.branch condition .short) = true := by
  unfold Instruction.shortenAt at h
  split at h
  · split_ifs at h with hr
    · injection h with hop hod
      injection hop with hc _
      injection hod with ht
      rw [← hc, ← ht]
      exact Or.inr hr
    · cases h
  · exact Or.inl h

namespace Code

/-- One sweep: the offsets it judges by are those before it, and the code after it is narrower. -/
theorem ShortBranchesReach.shortenSweep {code : Code} (h : code.ShortBranchesReach) :
    (shortenSweep code).ShortBranchesReach := by
  intro index target condition hi
  have hs := hi
  unfold Code.shortenSweep at hs
  rw [List.getElem?_mapIdx] at hs
  obtain ⟨i, hcode, hshort⟩ := Option.map_eq_some_iff.mp hs
  have hlt : index < code.length := (List.getElem?_eq_some_iff.mp hcode).1
  have hr : reaches code.offsets index target (.branch condition .short) = true := by
    rcases Instruction.of_shortenAt_short hshort with heq | hr
    · rw [heq] at hcode
      exact h index target condition hcode
    · exact hr
  exact reaches_of_narrower code.narrower_shortenSweep hlt hr

/-- Every short branch of shrunk code reaches its target. -/
theorem shortBranchesReach_shrink (code : Code) : code.shrink.ShortBranchesReach :=
  settle_preserves (fun _ hx => ShortBranchesReach.shortenSweep hx)
    (shortBranchesReach_widen (code.map Instruction.compact))

/-! ## Operands -/

theorem forall_mem_mapIdx {α : Type} {P : α → Prop} {l : List α} {f : Nat → α → α}
    (hf : ∀ k a, P a → P (f k a)) (h : ∀ a ∈ l, P a) : ∀ a ∈ l.mapIdx f, P a := by
  intro a ha
  obtain ⟨k, hk, rfl⟩ := List.mem_mapIdx.mp ha
  exact hf k _ (h _ (List.getElem_mem hk))

/-- What holds of the compacted instructions, and stays true of a branch that is respelled, holds of
every instruction of shrunk code. -/
theorem forall_mem_shrink {P : Instruction → Prop} {code : Code}
    (hwiden : ∀ (offsets : Array Nat) (k : Nat) (i : Instruction), P i → P (i.widenAt offsets k))
    (hshorten : ∀ (offsets : Array Nat) (k : Nat) (i : Instruction), P i →
      P (i.shortenAt offsets k))
    (h : ∀ i ∈ code, P i.compact) : ∀ i ∈ code.shrink, P i := by
  unfold shrink shorten widen
  refine settle_preserves (P := fun x : Code => ∀ i ∈ x, P i) (fun x hx => ?_)
    (settle_preserves (P := fun x : Code => ∀ i ∈ x, P i) (fun x hx => ?_) ?_)
  · exact forall_mem_mapIdx (hshorten x.offsets) hx
  · exact forall_mem_mapIdx (hwiden x.offsets) hx
  · intro i hi
    obtain ⟨j, hj, rfl⟩ := List.mem_map.mp hi
    exact h j hj

/-- Shrinking makes operands fit and keeps those that do. -/
theorem fits_of_mem_shrink {code : Code} (h : ∀ i ∈ code, i.Respellable) :
    ∀ i ∈ code.shrink, i.fits = true := by
  apply forall_mem_shrink
  · intro offsets k i hi
    rw [i.fits_widenAt, hi]
  · intro offsets k i hi
    rw [i.fits_shortenAt, hi]
  · intro i hi
    exact Instruction.fits_compact (h i hi)

/-! ## What can be written down -/

/-- A branch at `index` with this operand has a target, within the code or at its end, and the
distance to it fits one signed byte. -/
def Lands (code : Code) (index : Nat) (operand : Operand) : Prop :=
  ∃ target, operand = .target target ∧ target ≤ code.length ∧
    -128 ≤ code.distance index target ∧ code.distance index target ≤ 127

theorem ShortBranchesReach.lands {code : Code} {index target : Nat} {condition : Condition}
    (h : code.ShortBranchesReach)
    (hi : code[index]? = some ⟨.branch condition .short, .target target⟩) :
    code.Lands index (.target target) :=
  ⟨target, rfl, (reaches_self_iff hi).mp (h index target condition hi)⟩

/-- Code is encodable if every instruction can be built and every short branch lands. -/
theorem encodable_iff (code : Code) :
    code.Encodable ↔
      (∀ i ∈ code, Instruction.build i.opcode i.operand = .ok i) ∧
      ∀ (index : Nat) (condition : Condition) (operand : Operand),
        code[index]? = some ⟨.branch condition .short, operand⟩ → code.Lands index operand := by
  unfold Encodable
  simp only [Instruction.build_eq_ok_iff]
  refine and_congr_right fun hfits => ⟨fun h => ?_, fun h => ?_⟩
  · intro index condition operand hi
    have hfit := hfits _ (List.mem_of_getElem? hi)
    cases operand with
    | target goal => exact ShortBranchesReach.lands h hi
    | _ => cases hfit
  · intro index target condition hi
    obtain ⟨goal, hgoal, hlands⟩ := h index condition _ hi
    cases hgoal
    exact (reaches_self_iff hi).mpr hlands

/-- Shrinking leaves an instruction alone if the instruction means itself. -/
theorem getElem?_shrink_of_itself {code : Code} {index : Nat} {i : Instruction}
    (hi : code[index]? = some i) (hm : i.meaning = .itself i) : code.shrink[index]? = some i := by
  have h := code.map_meaning_getElem?_shrink index
  rw [hi, Option.map_some, hm] at h
  obtain ⟨j, hj, hmean⟩ := Option.map_eq_some_iff.mp h
  rw [hj, Instruction.eq_of_meaning_itself hmean]

/-- A branch keeps its condition and its target. -/
theorem getElem?_shrink_of_branch {code : Code} {index target : Nat} {condition : Condition}
    {width : Width} (hi : code[index]? = some ⟨.branch condition width, .target target⟩) :
    ∃ width', code.shrink[index]? = some ⟨.branch condition width', .target target⟩ := by
  have h := code.map_meaning_getElem?_shrink index
  rw [hi, Option.map_some, Instruction.meaning_branch] at h
  obtain ⟨j, hj, hmean⟩ := Option.map_eq_some_iff.mp h
  obtain ⟨width', rfl⟩ := Instruction.eq_of_meaning_branch hmean
  exact ⟨width', hj⟩

/-- A short branch of shrunk code lands, or it has no target and stood there before. -/
theorem lands_or_targetless {code : Code} {index : Nat} {condition : Condition} {operand : Operand}
    (hi : code.shrink[index]? = some ⟨.branch condition .short, operand⟩) :
    code.shrink.Lands index operand ∨
      (Instruction.target? ⟨.branch condition .short, operand⟩ = none ∧
        code[index]? = some ⟨.branch condition .short, operand⟩) := by
  cases ht : Instruction.target? ⟨.branch condition .short, operand⟩ with
  | some target =>
      left
      cases operand with
      | target index => exact code.shortBranchesReach_shrink.lands hi
      | _ => cases ht
  | none =>
      right
      refine ⟨rfl, ?_⟩
      have h := code.map_meaning_getElem?_shrink index
      rw [hi, Option.map_some, Instruction.meaning_targetless ht] at h
      obtain ⟨i, hcode, hmean⟩ := Option.map_eq_some_iff.mp h.symm
      rw [hcode, Instruction.eq_of_meaning_itself hmean]

/-- A short branch to a place past the end becomes long. -/
theorem getElem?_shrink_past_end {code : Code} {index target : Nat} {condition : Condition}
    (hi : code[index]? = some ⟨.branch condition .short, .target target⟩)
    (ht : code.length < target) :
    code.shrink[index]? = some ⟨.branch condition .long, .target target⟩ := by
  obtain ⟨width, hs⟩ := getElem?_shrink_of_branch hi
  cases width with
  | long => exact hs
  | short =>
      have hreach := code.shortBranchesReach_shrink index target condition hs
      have hle := ((reaches_self_iff hs).mp hreach).1
      rw [length_shrink] at hle
      omega

/-- **Shrunk code is encodable.** Whatever the code, each short branch with a target lands within
reach of its signed byte, a short branch without a target is one that was there before, and a short
branch to a place past the end has become long. If each operand fits, or is a slot that would fit a
wider spelling, then each instruction of the shrunk code can be built and each short branch lands. -/
theorem shrink_encodable (code : Code) :
    (∀ (index : Nat) (condition : Condition) (operand : Operand),
      code.shrink[index]? = some ⟨.branch condition .short, operand⟩ →
      code.shrink.Lands index operand ∨
        (Instruction.target? ⟨.branch condition .short, operand⟩ = none ∧
          code[index]? = some ⟨.branch condition .short, operand⟩)) ∧
    (∀ (index target : Nat) (condition : Condition),
      code[index]? = some ⟨.branch condition .short, .target target⟩ → code.length < target →
      code.shrink[index]? = some ⟨.branch condition .long, .target target⟩) ∧
    ((∀ i ∈ code, i.Respellable) →
      (∀ i ∈ code.shrink, Instruction.build i.opcode i.operand = .ok i) ∧
      ∀ (index : Nat) (condition : Condition) (operand : Operand),
        code.shrink[index]? = some ⟨.branch condition .short, operand⟩ →
        code.shrink.Lands index operand) := by
  refine ⟨fun _ _ _ => lands_or_targetless, fun _ _ _ => getElem?_shrink_past_end, fun h => ?_⟩
  have hfits := fits_of_mem_shrink h
  refine ⟨fun i hi => i.build_eq_ok_iff.mpr (hfits i hi), ?_⟩
  intro index condition operand hi
  rcases lands_or_targetless hi with hlands | ⟨htarget, _⟩
  · exact hlands
  · -- an operand that fits a branch is a target
    have hfit := hfits _ (List.mem_of_getElem? hi)
    cases operand with
    | target index => cases htarget
    | _ => cases hfit

/-- A store to a slot beyond one byte, and a branch to a place past the end. -/
theorem shrink_encodable_wide_store :
    let code : Code :=
      [ ⟨.slot ⟨.locals, .write⟩ .short, .localSlot 300⟩,
        ⟨.branch .ifTrue .short, .target 9⟩, ⟨.branch .always .long, .target 0⟩ ]
    (∀ i ∈ code, i.Respellable) ∧
      (∀ i ∈ code.shrink, Instruction.build i.opcode i.operand = .ok i) ∧
      code.shrink[1]? = some ⟨.branch .ifTrue .long, .target 9⟩ := by
  intro code
  have h : ∀ i ∈ code, i.Respellable := by
    intro i hi
    simp only [code, List.mem_cons, List.not_mem_nil, or_false] at hi
    rcases hi with rfl | rfl | rfl
    · exact Or.inr ⟨⟨.locals, .write⟩, 300, rfl⟩
    · exact Or.inl rfl
    · exact Or.inl rfl
  obtain ⟨_, hpast, hfits⟩ := shrink_encodable code
  exact ⟨h, (hfits h).1, hpast 1 9 .ifTrue rfl (by decide)⟩

/-- Not every short branch of shrunk code lands: a branch without a target stays short. -/
theorem shrink_targetless_not_lands :
    ¬ ∀ (code : Code) (index : Nat) (condition : Condition) (operand : Operand),
      code.shrink[index]? = some ⟨.branch condition .short, operand⟩ →
      code.shrink.Lands index operand := by
  intro h
  have hstays : (shrink [⟨.branch .always .short, .none⟩])[0]?
      = some ⟨.branch .always .short, .none⟩ := getElem?_shrink_of_itself rfl rfl
  obtain ⟨target, htarget, _⟩ := h _ _ _ _ hstays
  cases htarget

end Code

end LocalRecovery
