import LocalRecovery.Proofs.Respelling
import Mathlib.Logic.Relation

set_option autoImplicit false

/-! # Branch by branch

A sweep of `Code.shorten` or `Code.widen` respells many branches at once, by offsets that are stale
after the first of them. The careful way is to pick one branch at a time and to lay the code out
anew before the next one (`Code.Pick`). Both ways come to the same code, whichever branch is picked
first.

The reason is that the code only moves one way (`Code.Onward`). While branches become short it
narrows, and a branch that would land as a short one goes on to do so; while branches become long it
widens, and a branch that misses its target goes on to miss it (`due_of_onward`). Hence two picks
can be made in either order (`Pick.diamond`), and a sweep is a series of picks: at each of its
branches the stale offsets decide as the new ones would (`pick_sweepBelow`). Picks in any order
therefore end at one code, and repeated sweeps end there too (`exhausts_iff`).
-/

namespace LocalRecovery

/-! ## Branches that should have the other width -/

/-- The other width. -/
def Width.other : Width → Width
  | .short => .long
  | .long => .short

namespace Instruction

/-- A branch in its other width. -/
def turned (i : Instruction) : Instruction :=
  match i.opcode with
  | .branch condition width => ⟨.branch condition width.other, i.operand⟩
  | _ => i

/-- The instruction is a branch of the given width that should have the other one: it is long and
would reach as a short one, or it is short and does not reach. -/
def Due (width : Width) (offsets : Array Nat) (index : Nat) (i : Instruction) : Prop :=
  ∃ (condition : Condition) (target : Nat),
    i = ⟨.branch condition width, .target target⟩ ∧
    (Code.reaches offsets index target (.branch condition .short) = true ↔ width = .long)

/-- What a sweep over the branches of a width does to the instruction at `index`. -/
def turnAt : Width → Array Nat → Nat → Instruction → Instruction
  | .long => shortenAt
  | .short => widenAt

/-- A sweep turns the branches that are due and leaves all else alone. -/
theorem turnAt_cases (width : Width) (offsets : Array Nat) (index : Nat) (i : Instruction) :
    (i.Due width offsets index ∧ i.turnAt width offsets index = i.turned) ∨
      (¬ i.Due width offsets index ∧ i.turnAt width offsets index = i) := by
  cases width with
  | long =>
      show _ ∧ i.shortenAt offsets index = _ ∨ _ ∧ i.shortenAt offsets index = _
      unfold shortenAt
      split
      · split_ifs with hr
        · exact Or.inl ⟨⟨_, _, rfl, by simp [hr]⟩, rfl⟩
        · refine Or.inr ⟨?_, rfl⟩
          rintro ⟨_, _, ⟨⟩, hdue⟩
          exact hr (hdue.mpr rfl)
      · rename_i hother
        refine Or.inr ⟨?_, rfl⟩
        rintro ⟨condition, target, rfl, _⟩
        exact hother condition target rfl
  | short =>
      show _ ∧ i.widenAt offsets index = _ ∨ _ ∧ i.widenAt offsets index = _
      unfold widenAt
      split
      · split_ifs with hr
        · refine Or.inr ⟨?_, rfl⟩
          rintro ⟨_, _, ⟨⟩, hdue⟩
          cases hdue.mp hr
        · exact Or.inl ⟨⟨_, _, rfl, by simp [hr]⟩, rfl⟩
      · rename_i hother
        refine Or.inr ⟨?_, rfl⟩
        rintro ⟨condition, target, rfl, _⟩
        exact hother condition target rfl

variable {width : Width} {offsets : Array Nat} {index : Nat} {i : Instruction}

theorem eq_of_isBranch (h : i.isBranch width = true) :
    ∃ condition target, i = ⟨.branch condition width, .target target⟩ := by
  rcases i with ⟨opcode, operand⟩
  unfold isBranch at h
  split at h
  · rename_i condition w target hop hod
    simp only [beq_iff_eq] at h
    exact ⟨condition, target, by rw [← h, ← hop, ← hod]⟩
  · cases h

theorem Due.isBranch (h : i.Due width offsets index) :
    i.isBranch width = true ∧ i.turned.isBranch width = false := by
  obtain ⟨condition, target, rfl, _⟩ := h
  cases width <;> exact ⟨rfl, rfl⟩

theorem Due.turned_ne (h : i.Due width offsets index) : i.turned ≠ i := by
  intro heq
  have hbranch := h.isBranch
  rw [heq, hbranch.1] at hbranch
  cases hbranch.2

end Instruction

namespace Code

/-! ## Respelling goes one way -/

/-- How code may move while branches of a width are turned: it narrows if they are long and widens
if they are short. -/
def Onward : Width → Code → Code → Prop
  | .long, before, after => Narrower after before
  | .short, before, after => Narrower before after

variable {width : Width} {x y z : Code} {k : Nat} {i : Instruction}

theorem Onward.length_eq (h : Onward width x y) : x.length = y.length := by
  cases width with
  | long => exact (List.Forall₂.length_eq h).symm
  | short => exact List.Forall₂.length_eq h

/-- Code in which some branches have been turned. -/
theorem onward_of_turned (hlen : x.length = y.length)
    (h : ∀ (k : Nat) (i j : Instruction), x[k]? = some i → y[k]? = some j →
      j = i ∨ i.isBranch width = true ∧ j = i.turned) : Onward width x y := by
  cases width with
  | long =>
      refine forall₂_of_getElem? hlen.symm fun k j i hj hi => ?_
      rcases h k i j hi hj with rfl | ⟨hi', rfl⟩
      · exact Nat.le_refl _
      · obtain ⟨condition, target, rfl⟩ := Instruction.eq_of_isBranch hi'
        exact Nat.le_of_lt (Opcode.size_branch_short_lt condition)
  | short =>
      refine forall₂_of_getElem? hlen fun k i j hi hj => ?_
      rcases h k i j hi hj with rfl | ⟨hi', rfl⟩
      · exact Nat.le_refl _
      · obtain ⟨condition, target, rfl⟩ := Instruction.eq_of_isBranch hi'
        exact Nat.le_of_lt (Opcode.size_branch_short_lt condition)

/-- A branch that is due stays due while others are turned. -/
theorem due_of_onward (h : Onward width x y) (hk : k < x.length)
    (hdue : i.Due width x.offsets k) : i.Due width y.offsets k := by
  obtain ⟨condition, target, rfl, hreach⟩ := hdue
  refine ⟨condition, target, rfl, ?_⟩
  cases width with
  | long =>
      have hr := reaches_of_narrower h hk (hreach.mpr rfl)
      simp [hr]
  | short =>
      -- if it reached in the wider code, it would have reached before
      have hmiss : ¬ reaches y.offsets k target (.branch condition .short) = true := by
        intro hr
        have hr' := reaches_of_narrower h (h.length_eq ▸ hk) hr
        cases hreach.mp hr'
      simp [hmiss]

/-! ## Picks -/

/-- One branch is picked and turned, and the code is laid out anew. Among the long branches a pick
takes one that lands once it is short, among the short ones one that does not land. -/
inductive Pick : Width → Code → Code → Prop where
  | shorten {code : Code} {index target : Nat} {condition : Condition}
      (long : code[index]? = some ⟨.branch condition .long, .target target⟩)
      (lands : (code.replaceAt index ⟨.branch condition .short, .target target⟩).Lands index
        (.target target)) :
      Pick .long code (code.replaceAt index ⟨.branch condition .short, .target target⟩)
  | widen {code : Code} {index target : Nat} {condition : Condition}
      (short : code[index]? = some ⟨.branch condition .short, .target target⟩)
      (misses : ¬ code.Lands index (.target target)) :
      Pick .short code (code.replaceAt index ⟨.branch condition .long, .target target⟩)

/-- The code `out` is what is left of `code` after picks, in some order, until there is nothing to
pick. -/
structure Exhausts (width : Width) (code out : Code) : Prop where
  reached : Relation.ReflTransGen (Pick width) code out
  rest : ∀ next, ¬ Pick width out next

theorem lands_iff_reaches {code : Code} {index target : Nat} {condition : Condition}
    (h : code[index]? = some ⟨.branch condition .short, .target target⟩) :
    code.Lands index (.target target) ↔
      reaches code.offsets index target (.branch condition .short) = true := by
  rw [reaches_self_iff h]
  constructor
  · rintro ⟨_, ⟨⟩, hland⟩
    exact hland
  · intro hland
    exact ⟨target, rfl, hland⟩

/-- A pick turns a branch that is due by the offsets of the code as it stands. -/
theorem pick_iff_due {code next : Code} :
    Pick width code next ↔
      ∃ index i, code[index]? = some i ∧ i.Due width code.offsets index ∧
        next = code.replaceAt index i.turned := by
  -- the place of a branch does not matter for its own reach
  have hself : ∀ {index target : Nat} {condition : Condition},
      code[index]? = some ⟨.branch condition .long, .target target⟩ →
      ((code.replaceAt index ⟨.branch condition .short, .target target⟩).Lands index
          (.target target) ↔
        reaches code.offsets index target (.branch condition .short) = true) := by
    intro index target condition h
    have hlt : index < code.length := (List.getElem?_eq_some_iff.mp h).1
    have hshort : (code.replaceAt index ⟨.branch condition .short, .target target⟩)[index]?
        = some ⟨.branch condition .short, .target target⟩ := List.getElem?_set_self hlt
    rw [lands_iff_reaches hshort, code.reaches_replaceAt_iff _ _ hlt]
  constructor
  · intro h
    cases h with
    | shorten long lands =>
        exact ⟨_, _, long, ⟨_, _, rfl, by simp [(hself long).mp lands]⟩, rfl⟩
    | widen short misses =>
        exact ⟨_, _, short, ⟨_, _, rfl, by simp [mt (lands_iff_reaches short).mpr misses]⟩, rfl⟩
  · rintro ⟨index, _, hi, ⟨condition, target, rfl, hdue⟩, rfl⟩
    cases width with
    | long => exact .shorten hi ((hself hi).mpr (hdue.mpr rfl))
    | short =>
        refine .widen hi fun hlands => ?_
        cases hdue.mp ((lands_iff_reaches hi).mp hlands)

theorem onward_replaceAt (hi : x[k]? = some i) (hdue : i.Due width x.offsets k) :
    Onward width x (x.replaceAt k i.turned) := by
  refine onward_of_turned List.length_set.symm fun n j j' hj hj' => ?_
  unfold replaceAt at hj'
  rw [List.getElem?_set] at hj'
  split_ifs at hj' with hn hlt
  · cases hj'
    rw [← hn, hi] at hj
    cases hj
    exact Or.inr ⟨hdue.isBranch.1, rfl⟩
  · rw [hj] at hj'
    cases hj'
    exact Or.inl rfl

/-- Two picks in one code can be made one after the other, in either order. -/
theorem Pick.diamond (hy : Pick width x y) (hz : Pick width x z) :
    y = z ∨ ∃ w, Pick width y w ∧ Pick width z w := by
  obtain ⟨a, i, hi, hdue, rfl⟩ := pick_iff_due.mp hy
  obtain ⟨b, j, hj, hdue', rfl⟩ := pick_iff_due.mp hz
  by_cases hab : a = b
  · left
    subst hab
    rw [hi] at hj
    cases hj
    rfl
  · right
    have ha : a < x.length := (List.getElem?_eq_some_iff.mp hi).1
    have hb : b < x.length := (List.getElem?_eq_some_iff.mp hj).1
    refine ⟨(x.replaceAt a i.turned).replaceAt b j.turned, pick_iff_due.mpr ⟨b, j, ?_, ?_, rfl⟩,
      pick_iff_due.mpr ⟨a, i, ?_, ?_, List.set_comm _ _ hab⟩⟩
    · exact (List.getElem?_set_ne hab).trans hj
    · exact due_of_onward (onward_replaceAt hi hdue) hb hdue'
    · exact (List.getElem?_set_ne (Ne.symm hab)).trans hi
    · exact due_of_onward (onward_replaceAt hj hdue') ha hdue

/-- Each pick leaves one branch of the width less. -/
theorem branchCount_lt_of_pick (h : Pick width x y) :
    y.branchCount width < x.branchCount width := by
  obtain ⟨k, i, hi, hdue, rfl⟩ := pick_iff_due.mp h
  obtain ⟨hlt, hget⟩ := List.getElem?_eq_some_iff.mp hi
  have hpos : 0 < x.countP (Instruction.isBranch width) :=
    List.countP_pos_iff.mpr ⟨i, List.mem_of_getElem? hi, hdue.isBranch.1⟩
  unfold branchCount replaceAt
  rw [List.countP_set hlt, hget, hdue.isBranch.1, hdue.isBranch.2]
  simp only [if_true, Bool.false_eq_true, if_false]
  omega

/-! ## Sweeps are picks -/

/-- A sweep over the branches of a width. -/
def sweep (width : Width) (code : Code) : Code :=
  code.mapIdx (Instruction.turnAt width code.offsets)

/-- The sweep when it has come to the instruction at `n`: it judges by the offsets at its start. -/
def sweepBelow (width : Width) (n : Nat) (code : Code) : Code :=
  code.mapIdx fun k i => if k < n then i.turnAt width code.offsets k else i

theorem getElem?_sweepBelow (width : Width) (n : Nat) (code : Code) (k : Nat) :
    (sweepBelow width n code)[k]?
      = code[k]?.map fun i => if k < n then i.turnAt width code.offsets k else i := by
  unfold sweepBelow
  rw [List.getElem?_mapIdx]

theorem sweepBelow_zero (width : Width) (code : Code) : sweepBelow width 0 code = code := by
  refine List.ext_getElem? fun k => ?_
  rw [getElem?_sweepBelow]
  simp

theorem sweepBelow_length (width : Width) (code : Code) :
    sweepBelow width code.length code = sweep width code := by
  refine List.ext_getElem? fun k => ?_
  unfold sweep
  rw [getElem?_sweepBelow, List.getElem?_mapIdx]
  by_cases hk : k < code.length
  · simp [hk]
  · rw [List.getElem?_eq_none (Nat.le_of_not_lt hk)]
    rfl

/-- One more instruction is dealt with. -/
theorem sweepBelow_succ {code : Code} {n : Nat} (hi : code[n]? = some i) :
    sweepBelow width (n + 1) code
      = (sweepBelow width n code).replaceAt n (i.turnAt width code.offsets n) := by
  have hlt : n < (sweepBelow width n code).length := by
    unfold sweepBelow
    rw [List.length_mapIdx]
    exact (List.getElem?_eq_some_iff.mp hi).1
  refine List.ext_getElem? fun k => ?_
  unfold replaceAt
  rw [getElem?_sweepBelow, List.getElem?_set, getElem?_sweepBelow]
  by_cases hk : n = k
  · subst hk
    rw [if_pos rfl, if_pos hlt, hi, Option.map_some, if_pos (Nat.lt_succ_self n)]
  · have hiff : k < n + 1 ↔ k < n := by omega
    simp only [hk, hiff, if_false]

theorem onward_sweepBelow (width : Width) (n : Nat) (code : Code) :
    Onward width code (sweepBelow width n code) := by
  refine onward_of_turned ?_ fun k i j hi hj => ?_
  · unfold sweepBelow
    rw [List.length_mapIdx]
  · rw [getElem?_sweepBelow, hi, Option.map_some] at hj
    cases hj
    split_ifs
    · rcases i.turnAt_cases width code.offsets k with ⟨hdue, hturn⟩ | ⟨_, hturn⟩
      · exact Or.inr ⟨hdue.isBranch.1, hturn⟩
      · exact Or.inl hturn
    · exact Or.inl rfl

/-- **Stale offsets do not matter.** What a sweep does at one place is nothing or a pick, in the
code as it is by then. -/
theorem pick_sweepBelow (width : Width) (n : Nat) (code : Code) :
    sweepBelow width (n + 1) code = sweepBelow width n code ∨
      Pick width (sweepBelow width n code) (sweepBelow width (n + 1) code) := by
  cases hi : code[n]? with
  | none =>
      left
      refine List.ext_getElem? fun k => ?_
      have hle : code.length ≤ n := List.getElem?_eq_none_iff.mp hi
      rw [getElem?_sweepBelow, getElem?_sweepBelow]
      by_cases hk : k < code.length
      · have hboth : k < n + 1 ∧ k < n := by omega
        simp only [hboth, if_true]
      · rw [List.getElem?_eq_none (Nat.le_of_not_lt hk)]
        rfl
  | some i =>
      have hhere : (sweepBelow width n code)[n]? = some i := by
        rw [getElem?_sweepBelow, hi, Option.map_some, if_neg (Nat.lt_irrefl n)]
      have hlt : n < code.length := (List.getElem?_eq_some_iff.mp hi).1
      rw [sweepBelow_succ hi]
      rcases i.turnAt_cases width code.offsets n with ⟨hdue, hturn⟩ | ⟨_, hturn⟩
      · right
        rw [hturn]
        exact pick_iff_due.mpr
          ⟨n, i, hhere, due_of_onward (onward_sweepBelow width n code) hlt hdue, rfl⟩
      · left
        obtain ⟨hlt', hget⟩ := List.getElem?_eq_some_iff.mp hhere
        unfold replaceAt
        rw [hturn, ← hget, List.set_getElem_self]

theorem picks_sweepBelow (width : Width) (n : Nat) (code : Code) :
    Relation.ReflTransGen (Pick width) code (sweepBelow width n code) := by
  induction n with
  | zero =>
      rw [sweepBelow_zero]
  | succ n ih =>
      rcases pick_sweepBelow width n code with heq | hpick
      · rw [heq]
        exact ih
      · exact ih.tail hpick

/-- A sweep is a series of picks. -/
theorem picks_sweep (width : Width) (code : Code) :
    Relation.ReflTransGen (Pick width) code (sweep width code) := by
  rw [← sweepBelow_length]
  exact picks_sweepBelow width code.length code

/-- Where a sweep changes nothing there is nothing to pick. -/
theorem not_pick_of_fixed {code : Code} (h : sweep width code = code) (next : Code) :
    ¬ Pick width code next := by
  intro hpick
  obtain ⟨k, i, hi, hdue, _⟩ := pick_iff_due.mp hpick
  have hfix : (sweep width code)[k]? = code[k]? := by rw [h]
  unfold sweep at hfix
  rw [List.getElem?_mapIdx, hi, Option.map_some, Option.some.injEq] at hfix
  rcases i.turnAt_cases width code.offsets k with ⟨_, hturn⟩ | ⟨hnot, _⟩
  · exact hdue.turned_ne (hturn.symm.trans hfix)
  · exact hnot hdue

theorem sweep_eq_or_lt (width : Width) (code : Code) :
    sweep width code = code ∨
      (sweep width code).branchCount width < code.branchCount width := by
  refine mapIdx_eq_or_countP_lt code _ fun k i => ?_
  rcases i.turnAt_cases width code.offsets k with ⟨hdue, hturn⟩ | ⟨_, hturn⟩
  · rw [hturn]
    exact Or.inr hdue.isBranch
  · exact Or.inl hturn

/-! ## All orders end at one code -/

theorem exhausts_settle (width : Width) (code : Code) :
    Exhausts width code (settle (sweep width) (branchCount width) code) where
  reached := by
    refine settle_preserves (P := fun x => Relation.ReflTransGen (Pick width) code x) ?_ .refl
    intro x hx
    exact hx.trans (picks_sweep width x)
  rest := not_pick_of_fixed (settle_fixed (sweep_eq_or_lt width) code)

theorem Exhausts.unique {code out out' : Code} (h : Exhausts width code out)
    (h' : Exhausts width code out') : out = out' := by
  have hdiamond : ∀ x y z : Code, Pick width x y → Pick width x z →
      ∃ w, Relation.ReflGen (Pick width) y w ∧ Relation.ReflTransGen (Pick width) z w := by
    intro x y z hy hz
    rcases hy.diamond hz with rfl | ⟨w, hyw, hzw⟩
    · exact ⟨y, .refl, .refl⟩
    · exact ⟨w, .single hyw, .single hzw⟩
  -- nothing is left to pick in either of the two, so they are where they meet
  obtain ⟨w, hout, hout'⟩ := Relation.church_rosser hdiamond h.reached h'.reached
  have hw : out = w :=
    hout.cases_head.resolve_right fun ⟨next, hnext, _⟩ => h.rest next hnext
  have hw' : out' = w :=
    hout'.cases_head.resolve_right fun ⟨next, hnext, _⟩ => h'.rest next hnext
  rw [hw, hw']

theorem exhausts_iff (width : Width) (code out : Code) :
    Exhausts width code out ↔ out = settle (sweep width) (branchCount width) code := by
  constructor
  · intro h
    exact h.unique (exhausts_settle width code)
  · rintro rfl
    exact exhausts_settle width code

/-- There are no more picks in a row than there are branches to pick from. -/
theorem exists_not_pick (width : Width) (run : Nat → Code) :
    ∃ n ≤ (run 0).branchCount width, ¬ Pick width (run n) (run (n + 1)) := by
  by_contra hall
  push Not at hall
  have hcount : ∀ n ≤ (run 0).branchCount width + 1,
      (run n).branchCount width + n ≤ (run 0).branchCount width := by
    intro n hn
    induction n with
    | zero => exact Nat.le_refl _
    | succ n ih =>
        have hlt := branchCount_lt_of_pick (hall n (by omega))
        have hle := ih (by omega)
        omega
  have hlast := hcount _ (Nat.le_refl _)
  omega

/-- **Sweeping comes to the same code as respelling one branch at a time.** Pick any long branch
that lands once it is short, make it short, lay the code out anew, and go on until there is no such
branch: whichever branches are picked, the outcome is `shorten`. Pick any short branch that does not
land and make it long, and so on: the outcome is `widen`. Picking comes to an end, since there are
at most as many picks in a row as there are branches of the width. -/
theorem sweeps_eq_picks (code : Code) :
    (∀ out, Exhausts .long code out ↔ out = code.shorten) ∧
    (∀ out, Exhausts .short code out ↔ out = code.widen) ∧
    ∀ (width : Width) (run : Nat → Code),
      ∃ n ≤ (run 0).branchCount width, ¬ Pick width (run n) (run (n + 1)) :=
  ⟨exhausts_iff .long code, exhausts_iff .short code, exists_not_pick⟩

end Code

end LocalRecovery
