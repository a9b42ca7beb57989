import LocalRecovery.Proofs.Narrowing

set_option autoImplicit false

/-! # Shrunk code is at rest

Shrinking ends where none of its three parts has anything left to do: every instruction is compact
(`compact_of_mem_shrink`), every short branch reaches, and no long branch would reach as a short one
(`not_reaches_of_shrink`). Hence shrinking again changes nothing (`shrink_shrink`).

How an instruction of shrunk code compares with any other spelling of it is said once
(`Instruction.Compacted`): slots and constants are spelled in the one shortest way, a branch has one
of two widths, and all else has a single spelling. So the only instruction that could be smaller is a
long branch, and that one does not reach. The opcode alone tells whether an instruction was respelled,
so that `Code.respelled` counts the places that shrinking has changed.
-/

namespace LocalRecovery

/-! ## Operands that the opcode and the effect leave no choice about -/

theorem toInt32_injective : Function.Injective Int8.toInt32 := by
  intro x y h
  rw [← Int8.toInt_inj, ← Int8.toInt_toInt32, h, Int8.toInt_toInt32]

namespace Instruction

/-- Accesses of one opcode to one slot are the same instruction, if their operands fit. -/
theorem eq_of_slotAccess? {i j : Instruction} {access : SlotAccess × UInt16}
    (hi : i.fits = true) (hj : j.fits = true) (hop : i.opcode = j.opcode)
    (hsi : i.slotAccess? = some access) (hsj : j.slotAccess? = some access) : i = j := by
  rcases i with ⟨opcode, x⟩
  rcases j with ⟨opcode', y⟩
  cases hop
  congr 1
  cases opcode with
  | fixedSlot fixed slot =>
      cases fits_iff.mp hi
      cases fits_iff.mp hj
      rfl
  | slot access' width =>
      obtain ⟨index, hx, rfl⟩ := Option.map_eq_some_iff.mp hsi
      obtain ⟨index', hy, heq⟩ := Option.map_eq_some_iff.mp hsj
      cases heq
      exact (Operand.eq_ofSlot hx).trans (Operand.eq_ofSlot hy).symm
  | _ => cases hsi

/-- Loads of one constant by one opcode are the same instruction, if their operands fit. -/
theorem eq_of_constant? {i j : Instruction} {value : Int32}
    (hi : i.fits = true) (hj : j.fits = true) (hop : i.opcode = j.opcode)
    (hci : i.constant? = some value) (hcj : j.constant? = some value) : i = j := by
  rcases i with ⟨opcode, x⟩
  rcases j with ⟨opcode', y⟩
  cases hop
  congr 1
  cases opcode with
  | constant form =>
      cases form with
      | short =>
          cases fits_iff.mp hi with
          | int8 v =>
              cases fits_iff.mp hj with
              | int8 w =>
                  have hvw : some v.toInt32 = some w.toInt32 := hci.trans hcj.symm
                  rw [toInt32_injective (Option.some.inj hvw)]
      | long =>
          cases fits_iff.mp hi with
          | int32 v =>
              cases fits_iff.mp hj with
              | int32 w =>
                  have hvw : some v = some w := hci.trans hcj.symm
                  rw [Option.some.inj hvw]
      | _ =>
          cases fits_iff.mp hi
          cases fits_iff.mp hj
          rfl
  | _ => cases hci

/-! ## Compact instructions -/

theorem compact_of_slotAccess? {i : Instruction} {access : SlotAccess} {index : UInt16}
    (h : i.slotAccess? = some (access, index)) : i.compact = ofSlot access index := by
  unfold compact
  rw [h]

theorem compact_of_constant? {i : Instruction} {value : Int32} (hs : i.slotAccess? = none)
    (hc : i.constant? = some value) : i.compact = ofConstant value := by
  unfold compact
  rw [hs, hc]

theorem compact_compact (i : Instruction) : i.compact.compact = i.compact := by
  cases hs : i.slotAccess? with
  | some access =>
      rw [compact_of_slotAccess? hs, compact_of_slotAccess? (slotAccess?_ofSlot _ _)]
  | none =>
      cases hc : i.constant? with
      | some value =>
          rw [compact_of_constant? hs hc,
            compact_of_constant? (slotAccess?_ofConstant value) (constant?_ofConstant value)]
      | none =>
          have hself : i.compact = i := by
            unfold compact
            rw [hs, hc]
          rw [hself, hself]

theorem compact_widenAt (offsets : Array Nat) (index : Nat) {i : Instruction}
    (h : i.compact = i) : (i.widenAt offsets index).compact = i.widenAt offsets index := by
  unfold widenAt
  split
  · split_ifs <;> rfl
  · exact h

theorem compact_shortenAt (offsets : Array Nat) (index : Nat) {i : Instruction}
    (h : i.compact = i) : (i.shortenAt offsets index).compact = i.shortenAt offsets index := by
  unfold shortenAt
  split
  · split_ifs <;> rfl
  · exact h

/-- How a compact instruction compares with another instruction of the same meaning: it is the
shortest access to the slot or the shortest load of the constant, it is the same branch in either
width, or it is the other one itself. -/
inductive Compacted (i : Instruction) : Instruction → Prop where
  | slot (access : SlotAccess) (index : UInt16) (h : i.slotAccess? = some (access, index)) :
      Compacted i (ofSlot access index)
  | constant (value : Int32) (h : i.constant? = some value) : Compacted i (ofConstant value)
  | branch (condition : Condition) (width width' : Width) (target : Nat)
      (h : i = ⟨.branch condition width, .target target⟩) :
      Compacted i ⟨.branch condition width', .target target⟩
  | itself : Compacted i i

theorem compacted_of_meaning {i j : Instruction} (hj : j.compact = j)
    (h : i.meaning = j.meaning) : Compacted i j := by
  cases hm : j.meaning with
  | slot access index =>
      rw [← hj, compact_of_slotAccess? (slotAccess?_of_meaning hm)]
      exact .slot access index (slotAccess?_of_meaning (h.trans hm))
  | constant value =>
      obtain ⟨hs, hc⟩ := constant?_of_meaning hm
      rw [← hj, compact_of_constant? hs hc]
      exact .constant value (constant?_of_meaning (h.trans hm)).2
  | branch condition target =>
      obtain ⟨width, hi⟩ := eq_of_meaning_branch (h.trans hm)
      obtain ⟨width', rfl⟩ := eq_of_meaning_branch hm
      exact .branch condition width width' target hi
  | itself k =>
      rw [eq_of_meaning_itself hm, ← eq_of_meaning_itself (h.trans hm)]
      exact .itself

namespace Compacted

variable {i j : Instruction}

theorem fits (h : Compacted i j) (hi : i.fits = true) : j.fits = true := by
  cases h with
  | slot access index _ => exact fits_ofSlot access index
  | constant value _ => exact fits_ofConstant value
  | branch => rfl
  | itself => exact hi

/-- The opcode tells whether an instruction is the compact one. -/
theorem eq_of_opcode (h : Compacted i j) (hi : i.fits = true) (hop : i.opcode = j.opcode) :
    i = j := by
  have hj : j.fits = true := h.fits hi
  cases h with
  | slot access index hs => exact eq_of_slotAccess? hi hj hop hs (slotAccess?_ofSlot access index)
  | constant value hc => exact eq_of_constant? hi hj hop hc (constant?_ofConstant value)
  | branch condition width width' target heq =>
      subst heq
      cases hop
      rfl
  | itself => rfl

/-- A compact instruction is not larger than another one whose operand fits, unless it is a long
branch and the other one is the short branch. -/
theorem size_le_or (h : Compacted i j) (hi : i.fits = true) :
    j.size ≤ i.size ∨
      ∃ (condition : Condition) (target : Nat),
        j = ⟨.branch condition .long, .target target⟩ ∧
        i = ⟨.branch condition .short, .target target⟩ := by
  cases h with
  | slot access index hs => exact Or.inl (size_ofSlot_le_size hi hs)
  | constant value hc => exact Or.inl (size_ofConstant_le_size hc)
  | branch condition width width' target heq =>
      subst heq
      cases width' with
      | short =>
          left
          cases width with
          | short => exact Nat.le_refl _
          | long => exact Nat.le_of_lt (Opcode.size_branch_short_lt condition)
      | long =>
          cases width with
          | short => exact Or.inr ⟨condition, target, rfl, rfl⟩
          | long => exact Or.inl (Nat.le_refl _)
  | itself => exact Or.inl (Nat.le_refl _)

end Compacted

end Instruction

namespace Code

/-! ## Where shrinking ends -/

theorem compact_of_mem_shrink (code : Code) : ∀ i ∈ code.shrink, i.compact = i := by
  apply forall_mem_shrink
  · intro offsets k i hi
    exact Instruction.compact_widenAt offsets k hi
  · intro offsets k i hi
    exact Instruction.compact_shortenAt offsets k hi
  · intro i _
    exact i.compact_compact

/-- Any instruction that means the same as one of shrunk code compacts to it. -/
theorem compacted_of_shrink {code : Code} {index : Nat} {i j : Instruction}
    (hj : code.shrink[index]? = some j) (h : i.meaning = j.meaning) : i.Compacted j :=
  Instruction.compacted_of_meaning (code.compact_of_mem_shrink j (List.mem_of_getElem? hj)) h

theorem not_reaches_of_fixed {code : Code} (h : shortenSweep code = code) {index target : Nat}
    {condition : Condition} (hi : code[index]? = some ⟨.branch condition .long, .target target⟩) :
    ¬ reaches code.offsets index target (.branch condition .short) = true := by
  intro hr
  have hfix : (shortenSweep code)[index]? = code[index]? := by rw [h]
  unfold shortenSweep at hfix
  rw [List.getElem?_mapIdx, hi, Option.map_some, Option.some.injEq] at hfix
  simp [Instruction.shortenAt, hr] at hfix

/-- No long branch of shrunk code would reach as a short one. -/
theorem not_reaches_of_shrink {code : Code} {index target : Nat} {condition : Condition}
    (hi : code.shrink[index]? = some ⟨.branch condition .long, .target target⟩) :
    ¬ reaches code.shrink.offsets index target (.branch condition .short) = true :=
  not_reaches_of_fixed (shortenSweep_shorten _) hi

/-- Each of the three parts of shrinking leaves shrunk code as it is. -/
theorem shrink_shrink (code : Code) : code.shrink.shrink = code.shrink := by
  have hcompact : code.shrink.map Instruction.compact = code.shrink := by
    conv_rhs => rw [← List.map_id code.shrink]
    exact List.map_congr_left code.compact_of_mem_shrink
  have hwiden : widen code.shrink = code.shrink := widen_of_reach code.shortBranchesReach_shrink
  have hshorten : shorten code.shrink = code.shrink := settle_eq_self (shortenSweep_shorten _)
  calc code.shrink.shrink = shorten (widen (code.shrink.map Instruction.compact)) := rfl
    _ = shorten (widen code.shrink) := by rw [hcompact]
    _ = shorten code.shrink := by rw [hwiden]
    _ = code.shrink := hshorten

theorem respelled_cons (i j : Instruction) (before after : Code) :
    respelled (i :: before) (j :: after)
      = respelled before after + if i.opcode = j.opcode then 0 else 1 := by
  unfold respelled
  rw [List.zip_cons_cons, List.countP_cons]
  by_cases h : i.opcode = j.opcode <;> simp [h]

theorem respelled_self (code : Code) : respelled code code = 0 := by
  induction code with
  | nil => rfl
  | cons i rest ih => rw [respelled_cons, ih, if_pos rfl]

/-- **Shrinking twice is shrinking once.** The second time leaves the code unchanged and respells
nothing, whatever operands the opcodes carry. -/
theorem shrink_idempotent (code : Code) :
    code.shrink.shrink = code.shrink ∧ respelled code.shrink code.shrink.shrink = 0 := by
  have h := code.shrink_shrink
  refine ⟨h, ?_⟩
  rw [h]
  exact code.shrink.respelled_self

/-! ## No instruction can be made smaller -/

/-- The code with another instruction at `index`. -/
def replaceAt (code : Code) (index : Nat) (j : Instruction) : Code :=
  code.set index j

/-- Whether a branch reaches does not depend on what stands in its own place. -/
theorem reaches_replaceAt_iff (code : Code) {index target : Nat} (j : Instruction) (op : Opcode)
    (hi : index < code.length) :
    reaches (code.replaceAt index j).offsets index target op = true ↔
      reaches code.offsets index target op = true := by
  have hlen : (code.replaceAt index j).length = code.length := List.length_set
  have hsame : ∀ k, Spans index target k → (code.replaceAt index j)[k]? = code[k]? := by
    intro k hk
    apply List.getElem?_set_ne
    unfold Spans at hk
    omega
  constructor
  · intro hr
    refine reaches_of_size_le_at hlen.symm (hlen.symm ▸ hi) ?_ hr
    intro k x y hk hx hy
    rw [hsame k hk, hx] at hy
    cases hy
    exact Nat.le_refl _
  · intro hr
    refine reaches_of_size_le_at hlen hi ?_ hr
    intro k x y hk hx hy
    rw [hsame k hk, hy] at hx
    cases hx
    exact Nat.le_refl _

/-- **No single instruction of shrunk code can be made smaller.** Let an instruction that can be
built mean the same as the one at `index` and take fewer bytes. Then it is a short branch, and in the
code with this one change its target is past the end or out of reach. -/
theorem shrink_locally_shortest (code : Code) (index : Nat) (i j : Instruction)
    (hi : code.shrink[index]? = some i) (hj : Instruction.build j.opcode j.operand = .ok j)
    (hmeaning : j.meaning = i.meaning) (hsize : j.size < i.size) :
    ∃ (condition : Condition) (target : Nat), j = ⟨.branch condition .short, .target target⟩ ∧
      ((code.shrink.replaceAt index j).length < target ∨
        (code.shrink.replaceAt index j).distance index target < -128 ∨
        127 < (code.shrink.replaceAt index j).distance index target) := by
  have hfits : j.fits = true := j.build_eq_ok_iff.mp hj
  rcases (compacted_of_shrink hi hmeaning).size_le_or hfits with hle | ⟨condition, target, rfl, rfl⟩
  · omega
  · refine ⟨condition, target, rfl, ?_⟩
    have hlt : index < code.shrink.length := (List.getElem?_eq_some_iff.mp hi).1
    have hself : (code.shrink.replaceAt index ⟨.branch condition .short, .target target⟩)[index]?
        = some ⟨.branch condition .short, .target target⟩ := List.getElem?_set_self hlt
    have hfar := not_reaches_of_shrink hi
    rw [← code.shrink.reaches_replaceAt_iff _ _ hlt] at hfar
    have hrange := mt (reaches_self_iff hself).mpr hfar
    omega

/-- A branch across 128 bytes stays long, while the branch that it leads across becomes short. -/
theorem shrink_locally_shortest_far :
    let code : Code :=
      ⟨.branch .always .long, .target 16⟩ :: ⟨.branch .ifTrue .long, .target 2⟩ ::
        List.replicate 14 ⟨.constant64, .immediate (.int64 0)⟩
    code.shrink[0]? = some ⟨.branch .always .long, .target 16⟩ ∧
      code.shrink[1]? = some ⟨.branch .ifTrue .short, .target 2⟩ ∧
      127 < (code.shrink.replaceAt 0 ⟨.branch .always .short, .target 16⟩).distance 0 16 := by
  intro code
  have hstays : code.shrink[0]? = some ⟨.branch .always .long, .target 16⟩ := by decide +kernel
  refine ⟨hstays, by decide +kernel, ?_⟩
  obtain ⟨_, _, hshort, hfar⟩ := shrink_locally_shortest code 0 _
    ⟨.branch .always .short, .target 16⟩ hstays rfl rfl (by decide)
  cases hshort
  rcases hfar with hpast | hback | hforward
  · exact absurd hpast (by decide +kernel)
  · exact absurd hback (by decide +kernel)
  · exact hforward

/-! ## Code that can be written down does not grow -/

/-- Where equal opcodes go with equal instructions, the number of respelled instructions is the
number of places with different instructions. -/
theorem respelled_eq_countP {before after : Code}
    (h : List.Forall₂ (fun i j : Instruction => i.opcode = j.opcode → i = j) before after) :
    respelled before after
      = (List.range before.length).countP fun k => before[k]? ≠ after[k]? := by
  induction h with
  | nil => rfl
  | @cons i j before after hij _ ih =>
      have hiff : i.opcode = j.opcode ↔ i = j := ⟨hij, fun heq => by rw [heq]⟩
      rw [respelled_cons, ih, List.length_cons, List.range_succ_eq_map, List.countP_cons,
        List.countP_map]
      congr 1
      by_cases heq : i = j <;> simp [hiff, heq]

/-- **Shrinking code that can be written down never makes it larger.** Let every instruction be one
that can be built and every short branch land. Then no instruction grows, so that the whole does not
grow, a short branch stays as it is, and the number of respelled instructions is the number of places
at which the instruction is another one. -/
theorem shrink_never_grows (code : Code)
    (hbuild : ∀ i ∈ code, Instruction.build i.opcode i.operand = .ok i)
    (hlands : ∀ (index : Nat) (condition : Condition) (operand : Operand),
      code[index]? = some ⟨.branch condition .short, operand⟩ → code.Lands index operand) :
    code.shrink.length = code.length ∧
    (∀ (index : Nat) (i j : Instruction),
      code[index]? = some i → code.shrink[index]? = some j → j.size ≤ i.size) ∧
    code.shrink.size ≤ code.size ∧
    (∀ (index : Nat) (condition : Condition) (operand : Operand),
      code[index]? = some ⟨.branch condition .short, operand⟩ →
      code.shrink[index]? = some ⟨.branch condition .short, operand⟩) ∧
    respelled code code.shrink
      = (List.range code.length).countP fun k => code[k]? ≠ code.shrink[k]? := by
  have hcode : code.Encodable := code.encodable_iff.mpr ⟨hbuild, hlands⟩
  have hnarrow : Narrower code.shrink code := narrower_shrink hcode
  refine ⟨code.length_shrink, fun index i j hi hj => forall₂_getElem? hnarrow hj hi, hnarrow.size_le,
    ?_, respelled_eq_countP ?_⟩
  · intro index condition operand hi
    obtain ⟨target, rfl, _⟩ := hlands index condition operand hi
    obtain ⟨width, hj⟩ := getElem?_shrink_of_branch hi
    cases width with
    | short => exact hj
    | long =>
        -- it would have become larger
        have hle := forall₂_getElem? hnarrow hj hi
        exact absurd hle (Nat.not_le_of_lt (Opcode.size_branch_short_lt condition))
  · apply forall₂_of_getElem? code.length_shrink.symm
    intro index i j hi hj hop
    have hmeaning : i.meaning = j.meaning := meaning_eq_at code.map_meaning_shrink.symm hi hj
    have hfits : i.fits = true := hcode.1 i (List.mem_of_getElem? hi)
    exact (compacted_of_shrink hj hmeaning).eq_of_opcode hfits hop

/-- A branch across 127 bytes stays short, a load behind them is respelled, and the way back is too
long for a short branch. -/
theorem shrink_never_grows_edge :
    let code : Code :=
      ⟨.branch .ifTrue .short, .target 16⟩ ::
        (List.replicate 14 ⟨.constant64, .immediate (.int64 0)⟩ ++
          [ ⟨.plain .nop, .none⟩, ⟨.slot ⟨.locals, .read⟩ .long, .localSlot 1⟩,
            ⟨.branch .always .long, .target 0⟩ ])
    code.Encodable ∧ code.shrink[0]? = some ⟨.branch .ifTrue .short, .target 16⟩ ∧
      code.shrink.size ≤ code.size ∧ respelled code code.shrink = 1 := by
  intro code
  have hcode : code.Encodable := by decide +kernel
  obtain ⟨hbuild, hlands⟩ := code.encodable_iff.mp hcode
  obtain ⟨_, _, hsize, hshort, hcount⟩ := shrink_never_grows code hbuild hlands
  refine ⟨hcode, hshort 0 .ifTrue _ rfl, hsize, ?_⟩
  rw [hcount]
  decide +kernel

end Code

end LocalRecovery
