import LocalRecovery.Code.Layout
import Mathlib.Data.List.Forall2
import Mathlib.Tactic

set_option autoImplicit false

/-! # Where instructions lie

`Code.offsets` are prefix sums (`Code.offsetAt`), and a branch spans a stretch of code whose size is
`Code.gap`: forward from the end of the branch to the target, backward from the target to the end of
the branch. Whether a branch reaches is therefore one upper bound on one gap (`reaches_iff`).

A gap depends on the instructions within it only, and it shrinks when they do. So a branch keeps its
target within reach as long as no instruction that it leads across (`Code.Spans`) becomes larger
(`reaches_of_size_le_at`), and code in which no instruction has become larger keeps every branch
within reach (`reaches_of_narrower`).
-/

namespace LocalRecovery

/-! ## Lists compared place by place -/

theorem forall₂_getElem? {α β : Type} {R : α → β → Prop} {l : List α} {l' : List β}
    (h : List.Forall₂ R l l') {k : Nat} {a : α} {b : β} (ha : l[k]? = some a)
    (hb : l'[k]? = some b) : R a b := by
  obtain ⟨hk, rfl⟩ := List.getElem?_eq_some_iff.mp ha
  obtain ⟨hk', rfl⟩ := List.getElem?_eq_some_iff.mp hb
  exact (List.forall₂_iff_get.mp h).2 k hk hk'

theorem forall₂_of_getElem? {α β : Type} {R : α → β → Prop} {l : List α} {l' : List β}
    (hlen : l.length = l'.length)
    (h : ∀ (k : Nat) (a : α) (b : β), l[k]? = some a → l'[k]? = some b → R a b) :
    List.Forall₂ R l l' := by
  refine List.forall₂_iff_get.mpr ⟨hlen, ?_⟩
  intro k hk hk'
  exact h k _ _ (List.getElem?_eq_getElem hk) (List.getElem?_eq_getElem hk')

namespace Code

/-! ## Sizes and gaps -/

@[simp] theorem size_nil : size [] = 0 := rfl

@[simp] theorem size_cons (i : Instruction) (code : Code) :
    size (i :: code) = i.size + size code := rfl

@[simp] theorem size_append (front back : Code) :
    size (front ++ back) = size front + size back := by
  induction front with
  | nil => rw [List.nil_append, size_nil, Nat.zero_add]
  | cons i rest ih => rw [List.cons_append, size_cons, size_cons, ih, Nat.add_assoc]

/-- The number of bytes in front of the instruction at `k`. -/
def offsetAt (code : Code) (k : Nat) : Nat :=
  size (code.take k)

/-- The number of bytes from the instruction at `a` up to the one at `b`. -/
def gap (code : Code) (a b : Nat) : Nat :=
  size ((code.take b).drop a)

/-- The distance from the end of the instruction at `index` to the start of the one at `target`. -/
def distance (code : Code) (index target : Nat) : Int :=
  (code.offsetAt target : Int) - code.offsetAt (index + 1)

theorem offsetAt_add_gap (code : Code) {a b : Nat} (h : a ≤ b) :
    code.offsetAt a + code.gap a b = code.offsetAt b := by
  unfold offsetAt gap
  rw [← size_append]
  congr 1
  conv_rhs => rw [← List.take_append_drop a (code.take b)]
  rw [List.take_take, Nat.min_eq_left h]

theorem offsetAt_succ {code : Code} {k : Nat} {i : Instruction} (h : code[k]? = some i) :
    code.offsetAt (k + 1) = code.offsetAt k + i.size := by
  unfold offsetAt
  rw [List.take_add_one, h, Option.toList_some, size_append, size_cons, size_nil, Nat.add_zero]

/-! ## Offsets are prefix sums -/

theorem getElem?_offsetsFrom (code : Code) (start k : Nat) :
    (offsetsFrom start code)[k]?
      = if k ≤ code.length then some (start + code.offsetAt k) else none := by
  induction code generalizing start k with
  | nil =>
      cases k with
      | zero => rfl
      | succ k => rfl
  | cons i rest ih =>
      cases k with
      | zero => rfl
      | succ k =>
          rw [offsetsFrom, List.getElem?_cons_succ, ih]
          simp only [offsetAt, List.take_succ_cons, size_cons, List.length_cons,
            Nat.add_le_add_iff_right, Nat.add_assoc]

theorem getElem?_offsets (code : Code) (k : Nat) :
    code.offsets[k]? = if k ≤ code.length then some (code.offsetAt k) else none := by
  unfold offsets
  rw [List.getElem?_toArray, getElem?_offsetsFrom, Nat.zero_add]

/-! ## Reach -/

/-- The displacement of a branch with another spelling: a target behind the branch moves along with
the end of it, a target in front of it stays. -/
theorem displacement?_offsets {code : Code} {index target : Nat} (op : Opcode)
    (hi : index < code.length) (ht : target ≤ code.length) :
    displacement? code.offsets index target op
      = some (if index < target then (code.gap (index + 1) target : Int)
              else -(code.gap target index + op.size : Int)) := by
  unfold displacement?
  rw [getElem?_offsets, getElem?_offsets, getElem?_offsets, if_pos (Nat.le_of_lt hi),
    if_pos (Nat.succ_le_of_lt hi), if_pos ht]
  by_cases h : index < target
  · have hgap := code.offsetAt_add_gap (show index + 1 ≤ target from h)
    simp only [if_pos h, Option.some.injEq]
    omega
  · have hgap := code.offsetAt_add_gap (Nat.le_of_not_lt h)
    simp only [if_neg h, Option.some.injEq]
    omega

theorem displacement?_past_end {code : Code} {index target : Nat} (op : Opcode)
    (ht : code.length < target) : displacement? code.offsets index target op = none := by
  unfold displacement?
  rw [getElem?_offsets code target, if_neg (Nat.not_le_of_lt ht)]
  split
  · rename_i hgoal
    cases hgoal
  · rfl

/-- **Reach is a bound on a gap.** A forward branch has to span what lies between it and its target,
a backward branch also spans itself. -/
theorem reaches_iff {code : Code} {index target : Nat} (op : Opcode) (hi : index < code.length) :
    reaches code.offsets index target op = true ↔
      target ≤ code.length ∧
        if index < target then code.gap (index + 1) target ≤ 127
        else code.gap target index + op.size ≤ 128 := by
  unfold reaches
  by_cases ht : target ≤ code.length
  · rw [displacement?_offsets op hi ht, Option.any_some, inShortRange, Bool.and_eq_true,
      decide_eq_true_eq, decide_eq_true_eq]
    by_cases h : index < target
    · simp only [if_pos h]
      omega
    · simp only [if_neg h]
      omega
  · rw [displacement?_past_end op (Nat.lt_of_not_le ht)]
    simp [ht]

/-- An instruction reaches a target with its own spelling if the distance in the layout as it is
fits one signed byte. -/
theorem reaches_self_iff {code : Code} {index target : Nat} {i : Instruction}
    (h : code[index]? = some i) :
    reaches code.offsets index target i.opcode = true ↔
      target ≤ code.length ∧ -128 ≤ code.distance index target ∧
        code.distance index target ≤ 127 := by
  have hi : index < code.length := (List.getElem?_eq_some_iff.mp h).1
  rw [reaches_iff i.opcode hi]
  apply and_congr_right
  intro _
  unfold distance
  have hnext : code.offsetAt (index + 1) = code.offsetAt index + i.opcode.size := offsetAt_succ h
  by_cases ht : index < target
  · have hgap := code.offsetAt_add_gap (show index + 1 ≤ target from ht)
    rw [if_pos ht]
    omega
  · have hgap := code.offsetAt_add_gap (Nat.le_of_not_lt ht)
    rw [if_neg ht]
    omega

/-! ## Narrower code -/

/-- Code of the same length in which no instruction is larger. -/
def Narrower (narrow wide : Code) : Prop :=
  List.Forall₂ (fun i j : Instruction => i.size ≤ j.size) narrow wide

theorem Narrower.size_le {narrow wide : Code} (h : Narrower narrow wide) :
    narrow.size ≤ wide.size := by
  induction h with
  | nil => exact Nat.le_refl 0
  | cons hij _ ih =>
      rw [size_cons, size_cons]
      exact Nat.add_le_add hij ih

/-- A gap depends on the instructions within it only. -/
theorem gap_le_of_size_le_at {narrow wide : Code} {a b : Nat}
    (hlen : narrow.length = wide.length)
    (h : ∀ (k : Nat) (i j : Instruction), a ≤ k → k < b → narrow[k]? = some i →
      wide[k]? = some j → i.size ≤ j.size) : narrow.gap a b ≤ wide.gap a b := by
  apply Narrower.size_le
  apply forall₂_of_getElem?
  · rw [List.length_drop, List.length_drop, List.length_take, List.length_take, hlen]
  · intro k i j hi hj
    rw [List.getElem?_drop, List.getElem?_take] at hi hj
    split_ifs at hi hj with hk
    exact h (a + k) i j (Nat.le_add_right a k) hk hi hj

/-- A branch at `index` to `target` leads across the instruction at `k`. The branch itself is not
among those it leads across, whichever way it leads. -/
def Spans (index target k : Nat) : Prop :=
  index < k ∧ k < target ∨ target ≤ k ∧ k < index

/-- Making instructions smaller that a branch leads across keeps it within reach, whatever becomes
of the other instructions. -/
theorem reaches_of_size_le_at {narrow wide : Code} {index target : Nat} {op : Opcode}
    (hlen : narrow.length = wide.length) (hi : index < wide.length)
    (h : ∀ (k : Nat) (i j : Instruction), Spans index target k → narrow[k]? = some i →
      wide[k]? = some j → i.size ≤ j.size)
    (hr : reaches wide.offsets index target op = true) :
    reaches narrow.offsets index target op = true := by
  rw [reaches_iff op hi] at hr
  rw [reaches_iff op (hlen ▸ hi), hlen]
  refine ⟨hr.1, ?_⟩
  have hgap := hr.2
  by_cases ht : index < target
  · have hle : narrow.gap (index + 1) target ≤ wide.gap (index + 1) target :=
      gap_le_of_size_le_at hlen fun k i j ha hb => h k i j (Or.inl ⟨ha, hb⟩)
    rw [if_pos ht] at hgap ⊢
    omega
  · have hle : narrow.gap target index ≤ wide.gap target index :=
      gap_le_of_size_le_at hlen fun k i j ha hb => h k i j (Or.inr ⟨ha, hb⟩)
    rw [if_neg ht] at hgap ⊢
    omega

/-- Making instructions smaller keeps every branch within reach. -/
theorem reaches_of_narrower {narrow wide : Code} {index target : Nat} {op : Opcode}
    (h : Narrower narrow wide) (hi : index < wide.length)
    (hr : reaches wide.offsets index target op = true) :
    reaches narrow.offsets index target op = true :=
  reaches_of_size_le_at h.length_eq hi (fun _ _ _ _ hn hw => forall₂_getElem? h hn hw) hr

end Code

end LocalRecovery
