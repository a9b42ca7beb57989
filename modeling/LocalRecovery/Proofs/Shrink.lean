import LocalRecovery.Proofs.Spelling

set_option autoImplicit false

/-! # Shrinking keeps the meaning

`Code.shrink` respells single instructions and then sweeps over the branches, first widening and
then shortening, each until nothing changes. Two facts about such runs are all that is needed of
them: what every sweep keeps holds at the end (`settle_preserves`), and the end is a fixed point of
the sweep (`settle_fixed`).

Every sweep keeps the list of meanings, hence `Code.shrink` does (`map_meaning_shrink`).
-/

namespace LocalRecovery

/-! ## Settling -/

section Settle

variable {α : Type} {step : α → α} {measure : α → Nat}

/-- What one step keeps, a run keeps. -/
theorem settle_preserves {P : α → Prop} (hstep : ∀ x, P x → P (step x)) {x : α} (hx : P x) :
    P (settle step measure x) := by
  induction x using settle.induct step measure with
  | case1 x next hlt ih =>
      rw [settle, if_pos hlt]
      exact ih (hstep x hx)
  | case2 x next hlt =>
      rw [settle, if_neg hlt]
      exact hx

/-- If a step that changes anything lowers the measure, a run ends where a step changes nothing. -/
theorem settle_fixed (hstep : ∀ x, step x = x ∨ measure (step x) < measure x) (x : α) :
    step (settle step measure x) = settle step measure x := by
  induction x using settle.induct step measure with
  | case1 x next hlt ih =>
      rw [settle, if_pos hlt]
      exact ih
  | case2 x next hlt =>
      rw [settle, if_neg hlt]
      exact (hstep x).resolve_right hlt

end Settle

/-- A sweep that changes an element only by taking a property away from it changes nothing or
lowers the number of elements with the property. -/
theorem mapIdx_eq_or_countP_lt {α : Type} {p : α → Bool} (l : List α) (f : Nat → α → α)
    (hf : ∀ k a, f k a = a ∨ (p a = true ∧ p (f k a) = false)) :
    l.mapIdx f = l ∨ (l.mapIdx f).countP p < l.countP p := by
  induction l generalizing f with
  | nil => exact Or.inl rfl
  | cons a rest ih =>
      have hrest := ih (fun k => f (k + 1)) (fun k => hf (k + 1))
      have hle : (rest.mapIdx fun k => f (k + 1)).countP p ≤ rest.countP p := by
        rcases hrest with h | h
        · rw [h]
        · exact Nat.le_of_lt h
      rw [List.mapIdx_cons, List.countP_cons, List.countP_cons]
      rcases hf 0 a with ha | ⟨hbefore, hafter⟩
      · -- the head stays and counts the same on both sides, so the rest decides
        rw [ha]
        rcases hrest with h | h
        · exact Or.inl (by rw [h])
        · exact Or.inr (by omega)
      · -- the head no longer counts, and the rest counts no more than it did
        right
        rw [hbefore, hafter]
        simp only [Bool.false_eq_true, if_false, if_true]
        omega

/-- A sweep that leaves a view of each element alone leaves the list of views alone. -/
theorem map_mapIdx_of_eq {α β : Type} {g : α → β} (l : List α) (f : Nat → α → α)
    (hf : ∀ k a, g (f k a) = g a) : (l.mapIdx f).map g = l.map g := by
  induction l generalizing f with
  | nil => rfl
  | cons a rest ih =>
      rw [List.mapIdx_cons, List.map_cons, List.map_cons, hf 0 a,
        ih (fun k => f (k + 1)) (fun k => hf (k + 1))]

theorem forall₂_mapIdx {α : Type} {R : α → α → Prop} (l : List α) (f : Nat → α → α)
    (hf : ∀ k a, R (f k a) a) : List.Forall₂ R (l.mapIdx f) l := by
  induction l generalizing f with
  | nil => exact List.Forall₂.nil
  | cons a rest ih =>
      rw [List.mapIdx_cons]
      exact List.Forall₂.cons (hf 0 a) (ih (fun k => f (k + 1)) (fun k => hf (k + 1)))

/-! ## Sweeps over branches -/

namespace Instruction

theorem widenAt_eq_or (offsets : Array Nat) (index : Nat) (i : Instruction) :
    i.widenAt offsets index = i ∨
      (i.isBranch .short = true ∧ (i.widenAt offsets index).isBranch .short = false) := by
  unfold widenAt
  split
  · split_ifs
    · exact Or.inl rfl
    · exact Or.inr ⟨rfl, rfl⟩
  · exact Or.inl rfl

theorem shortenAt_eq_or (offsets : Array Nat) (index : Nat) (i : Instruction) :
    i.shortenAt offsets index = i ∨
      (i.isBranch .long = true ∧ (i.shortenAt offsets index).isBranch .long = false) := by
  unfold shortenAt
  split
  · split_ifs
    · exact Or.inr ⟨rfl, rfl⟩
    · exact Or.inl rfl
  · exact Or.inl rfl

end Instruction

namespace Code

/-- Widening ends where no short branch is left to widen. -/
theorem widenSweep_widen (code : Code) : widenSweep (widen code) = widen code :=
  settle_fixed
    (fun x : Code => mapIdx_eq_or_countP_lt x _ (Instruction.widenAt_eq_or x.offsets)) code

/-- Shortening ends where no long branch is left to shorten. -/
theorem shortenSweep_shorten (code : Code) : shortenSweep (shorten code) = shorten code :=
  settle_fixed
    (fun x : Code => mapIdx_eq_or_countP_lt x _ (Instruction.shortenAt_eq_or x.offsets)) code

/-! ## Meanings -/

/-- Instructions in one place of two codes with the same meanings mean the same. -/
theorem meaning_eq_at {x y : Code} (h : x.map Instruction.meaning = y.map Instruction.meaning)
    {k : Nat} {i j : Instruction} (hi : x[k]? = some i) (hj : y[k]? = some j) :
    i.meaning = j.meaning := by
  have hk : (x.map Instruction.meaning)[k]? = (y.map Instruction.meaning)[k]? := by rw [h]
  rw [List.getElem?_map, List.getElem?_map, hi, hj] at hk
  exact Option.some.inj hk

theorem length_eq_of_meaning {x y : Code}
    (h : x.map Instruction.meaning = y.map Instruction.meaning) : x.length = y.length := by
  have hlen := congrArg List.length h
  rwa [List.length_map, List.length_map] at hlen

/-- Sweeps that keep the meanings keep them over a whole run. -/
theorem map_meaning_settle {sweep : Code → Code} {measure : Code → Nat}
    (hsweep : ∀ x, (sweep x).map Instruction.meaning = x.map Instruction.meaning) (code : Code) :
    (settle sweep measure code).map Instruction.meaning = code.map Instruction.meaning := by
  refine settle_preserves
    (P := fun x : Code => x.map Instruction.meaning = code.map Instruction.meaning)
    (fun x hx => ?_) rfl
  rw [hsweep x, hx]

theorem map_meaning_widen (code : Code) :
    (widen code).map Instruction.meaning = code.map Instruction.meaning :=
  map_meaning_settle
    (fun x => map_mapIdx_of_eq x _ (Instruction.meaning_widenAt x.offsets)) code

theorem map_meaning_shorten (code : Code) :
    (shorten code).map Instruction.meaning = code.map Instruction.meaning :=
  map_meaning_settle
    (fun x => map_mapIdx_of_eq x _ (Instruction.meaning_shortenAt x.offsets)) code

theorem map_meaning_shrink (code : Code) :
    code.shrink.map Instruction.meaning = code.map Instruction.meaning := by
  unfold shrink
  rw [map_meaning_shorten, map_meaning_widen, List.map_map]
  congr 1
  funext i
  exact i.meaning_compact

theorem length_shrink (code : Code) : code.shrink.length = code.length :=
  length_eq_of_meaning code.map_meaning_shrink

theorem map_meaning_getElem?_shrink (code : Code) (index : Nat) :
    code.shrink[index]?.map Instruction.meaning = code[index]?.map Instruction.meaning := by
  rw [← List.getElem?_map, ← List.getElem?_map, map_meaning_shrink]

/-- **Shrinking never changes what code does.** It keeps the number of instructions and, at every
index, the meaning of the instruction there, whatever operands the opcodes carry. -/
theorem shrink_meaning_at (code : Code) :
    code.shrink.length = code.length ∧
      ∀ index : Nat,
        code.shrink[index]?.map Instruction.meaning = code[index]?.map Instruction.meaning :=
  ⟨code.length_shrink, code.map_meaning_getElem?_shrink⟩

end Code

end LocalRecovery
