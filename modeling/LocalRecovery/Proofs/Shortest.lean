import LocalRecovery.Proofs.Respelling

set_option autoImplicit false

/-! # How short shrunk code is

The spellings of code that can be written down (`Code.Spells`) are closed under taking the smaller
instruction at each place (`Spells.meet`), since every branch reaches all the more: what is short in
one spelling or the other can all be short together. Shrinking need not get that far. It shortens a
branch only if the branch reaches in the code as it stands, and two branches that lead across each
other may reach as short ones only together.

Nothing else stands in its way. Suppose a branch is long in shrunk code and short in another
spelling. It reaches there and would not reach here, so it leads across another such branch
(`Spells.exists_apart_spanned`). If every branch of a set leads across one of the set, then two of
them lead across each other (`exists_mutual_spans`). Hence shrunk code is nowhere larger than a
spelling, except for such a pair (`Spells.narrower_or_knotted`).

Code that has no long branch to begin with is shrunk to the smallest spelling in any case, since
widening never goes beyond what a spelling needs (`Spells.narrower_widen`).
-/

namespace LocalRecovery.Code

/-! ## Spellings -/

/-- Code that can be written down and does at every place what `code` does there. -/
structure Spells (other code : Code) : Prop where
  meaning : other.map Instruction.meaning = code.map Instruction.meaning
  builds : ∀ i ∈ other, Instruction.build i.opcode i.operand = .ok i
  lands : ∀ (index : Nat) (condition : Condition) (operand : Operand),
    other[index]? = some ⟨.branch condition .short, operand⟩ → other.Lands index operand

theorem spells_iff (other code : Code) :
    other.Spells code ↔
      other.map Instruction.meaning = code.map Instruction.meaning ∧ other.Encodable := by
  rw [encodable_iff]
  exact ⟨fun h => ⟨h.meaning, h.builds, h.lands⟩, fun h => ⟨h.1, h.2.1, h.2.2⟩⟩

instance (other code : Code) : Decidable (other.Spells code) :=
  decidable_of_iff _ (spells_iff other code).symm

/-- The branch at `index` to `target` is long in one code and short in the other. -/
def Apart (wide narrow : Code) (index target : Nat) : Prop :=
  ∃ condition : Condition,
    wide[index]? = some ⟨.branch condition .long, .target target⟩ ∧
    narrow[index]? = some ⟨.branch condition .short, .target target⟩

/-- Two branches that are long in one code and short in the other lead across each other. -/
def Knotted (wide narrow : Code) : Prop :=
  ∃ a b target target' : Nat,
    Apart wide narrow a target ∧ Apart wide narrow b target' ∧
    Spans a target b ∧ Spans b target' a

namespace Spells

variable {other code : Code}

theorem encodable (h : other.Spells code) : other.Encodable :=
  ((spells_iff other code).mp h).2

theorem meaning_shrink (h : other.Spells code) :
    other.map Instruction.meaning = code.shrink.map Instruction.meaning :=
  h.meaning.trans code.map_meaning_shrink.symm

theorem compacted (h : other.Spells code) {k : Nat} {i j : Instruction}
    (hi : other[k]? = some i) (hj : code.shrink[k]? = some j) : i.Compacted j :=
  compacted_of_shrink hj (meaning_eq_at h.meaning_shrink hi hj)

/-- Shrunk code is nowhere larger than a spelling, except for branches. -/
theorem size_le_or_apart (h : other.Spells code) {k : Nat} {i j : Instruction}
    (hi : other[k]? = some i) (hj : code.shrink[k]? = some j) :
    j.size ≤ i.size ∨ ∃ target, Apart code.shrink other k target := by
  have hfits : i.fits = true := h.encodable.1 i (List.mem_of_getElem? hi)
  rcases (h.compacted hi hj).size_le_or hfits with hle | ⟨condition, target, rfl, rfl⟩
  · exact Or.inl hle
  · exact Or.inr ⟨target, condition, hj, hi⟩

/-! ## Branches that depend on each other -/

/-- A branch that shrinking has left long, and that a spelling has short, leads across another one of
this kind. -/
theorem exists_apart_spanned (h : other.Spells code) {index target : Nat}
    (ha : Apart code.shrink other index target) :
    ∃ k target', Apart code.shrink other k target' ∧ Spans index target k := by
  obtain ⟨condition, hlong, hshort⟩ := ha
  by_contra hnone
  have hlt : index < other.length := (List.getElem?_eq_some_iff.mp hshort).1
  have hlen : code.shrink.length = other.length := (length_eq_of_meaning h.meaning_shrink).symm
  have hreach := h.encodable.2 index target condition hshort
  -- nothing that the branch leads across is larger in the shrunk code, so it would reach there too
  refine not_reaches_of_shrink hlong (reaches_of_size_le_at hlen hlt ?_ hreach)
  intro k j i hk hj hi
  rcases h.size_le_or_apart hi hj with hle | ⟨target', hapart⟩
  · exact hle
  · exact absurd ⟨k, target', hapart, hk⟩ hnone

end Spells

/-- The last number below a bound that has a property, if there is any. -/
theorem exists_last {P : Nat → Prop} {k bound : Nat} (hk : P k) (hlt : k < bound) :
    ∃ m, P m ∧ k ≤ m ∧ m < bound ∧ ∀ n, P n → n < bound → n ≤ m := by
  classical
  have hle : k ≤ bound - 1 := by omega
  refine ⟨Nat.findGreatest P (bound - 1), Nat.findGreatest_spec hle hk,
    Nat.le_findGreatest hle hk, ?_, ?_⟩
  · have hgreatest := Nat.findGreatest_le (P := P) (bound - 1)
    omega
  · intro n hn hlt'
    exact Nat.le_findGreatest (by omega) hn

/-- If each of finitely many branches leads across one of them, then two of them lead across each
other: the first one that leads backward, and the last one in front of it. -/
theorem exists_mutual_spans {branch : Nat → Nat → Prop} {bound : Nat}
    (hbound : ∀ a target, branch a target → a < bound)
    (hspans : ∀ a target, branch a target → ∃ b target', branch b target' ∧ Spans a target b)
    {index goal : Nat} (h : branch index goal) :
    ∃ a b target target', branch a target ∧ branch b target' ∧
      Spans a target b ∧ Spans b target' a := by
  classical
  -- the last branch of all can only lead backward
  have hback : ∃ b, ∃ target, branch b target ∧ target ≤ b := by
    obtain ⟨b, ⟨target, hb⟩, _, _, hlast⟩ :=
      exists_last (P := fun k => ∃ target, branch k target) ⟨goal, h⟩ (hbound _ _ h)
    obtain ⟨k, target', hk, hspan⟩ := hspans b target hb
    have hle : k ≤ b := hlast k ⟨target', hk⟩ (hbound _ _ hk)
    unfold Spans at hspan
    exact ⟨b, target, hb, by omega⟩
  obtain ⟨target, hb, htarget⟩ := Nat.find_spec hback
  have hfirst : ∀ k, k < Nat.find hback → ¬ ∃ target, branch k target ∧ target ≤ k :=
    fun k hk => Nat.find_min hback hk
  generalize Nat.find hback = b at hb htarget hfirst
  obtain ⟨k, target₁, hk, hspan⟩ := hspans b target hb
  have hkb : target ≤ k ∧ k < b := by
    unfold Spans at hspan
    omega
  obtain ⟨a, ⟨target₂, ha⟩, hka, hab, hlast⟩ :=
    exists_last (P := fun k => ∃ target, branch k target) ⟨target₁, hk⟩ hkb.2
  -- it leads forward, and not to a place in front of `b`, where it is the last one
  obtain ⟨k', target₃, hk', hspan'⟩ := hspans a target₂ ha
  have hforward : ¬ target₂ ≤ a := fun hle => hfirst a hab ⟨target₂, ha, hle⟩
  have hbeyond : ¬ (a < k' ∧ k' < b) := by
    rintro ⟨hak, hkb'⟩
    have hle := hlast k' ⟨target₃, hk'⟩ hkb'
    omega
  unfold Spans at hspan'
  refine ⟨a, b, target₂, target, ha, hb, Or.inl ⟨hab, by omega⟩, Or.inr ⟨by omega, hab⟩⟩

namespace Spells

variable {other code : Code}

/-- Shrunk code is nowhere larger than a spelling, unless the spelling has two branches short that
lead across each other and that shrinking has left long. -/
theorem narrower_or_knotted (h : other.Spells code) :
    Narrower code.shrink other ∨ Knotted code.shrink other := by
  by_cases hapart : ∃ index target, Apart code.shrink other index target
  · right
    obtain ⟨index, target, ha⟩ := hapart
    have hbound : ∀ k target', Apart code.shrink other k target' → k < other.length := by
      rintro k target' ⟨condition, _, hshort⟩
      exact (List.getElem?_eq_some_iff.mp hshort).1
    exact exists_mutual_spans hbound (fun _ _ => h.exists_apart_spanned) ha
  · left
    apply forall₂_of_getElem? (length_eq_of_meaning h.meaning_shrink).symm
    intro k j i hj hi
    rcases h.size_le_or_apart hi hj with hle | ⟨target, ha⟩
    · exact hle
    · exact absurd ⟨k, target, ha⟩ hapart

/-! ## Code without long branches -/

/-- A spelling has no branch short that a sweep widens: if it reaches there, it reaches in code that
is nowhere larger. -/
theorem narrower_widenSweep (h : other.Spells code) {x : Code} (hx : Narrower x other)
    (hmeaning : x.map Instruction.meaning = other.map Instruction.meaning) :
    Narrower (widenSweep x) other := by
  have hlen : x.length = other.length := hx.length_eq
  apply forall₂_of_getElem?
  · unfold widenSweep
    rw [List.length_mapIdx, hlen]
  · intro k i j hi hj
    unfold widenSweep at hi
    rw [List.getElem?_mapIdx] at hi
    obtain ⟨i₀, hi₀, rfl⟩ := Option.map_eq_some_iff.mp hi
    have hlt : k < other.length := (List.getElem?_eq_some_iff.mp hj).1
    have hle : i₀.size ≤ j.size := forall₂_getElem? hx hi₀ hj
    unfold Instruction.widenAt
    split
    · rename_i condition target
      split_ifs with hr
      · exact hle
      · have hj_meaning : j.meaning = .branch condition target :=
          (meaning_eq_at hmeaning hi₀ hj).symm
        obtain ⟨width, rfl⟩ := Instruction.eq_of_meaning_branch hj_meaning
        cases width with
        | short => exact absurd (reaches_of_narrower hx hlt (h.encodable.2 k _ _ hj)) hr
        | long => exact Nat.le_refl _
    · exact hle

theorem narrower_widen (h : other.Spells code) {x : Code} (hx : Narrower x other)
    (hmeaning : x.map Instruction.meaning = other.map Instruction.meaning) :
    Narrower (widen x) other := by
  suffices hboth : Narrower (widen x) other ∧
      (widen x).map Instruction.meaning = other.map Instruction.meaning from hboth.1
  refine settle_preserves (P := fun y : Code => Narrower y other ∧
    y.map Instruction.meaning = other.map Instruction.meaning) ?_ ⟨hx, hmeaning⟩
  rintro y ⟨hy, hmean⟩
  refine ⟨h.narrower_widenSweep hy hmean, ?_⟩
  unfold widenSweep
  rw [map_mapIdx_of_eq y _ (Instruction.meaning_widenAt y.offsets), hmean]

/-- Compact code is nowhere larger than a spelling that has no branch short where the code has it
long. -/
theorem narrower_compact (h : other.Spells code)
    (hapart : ∀ index target, ¬ Apart code other index target) :
    Narrower (code.map Instruction.compact) other := by
  apply forall₂_of_getElem?
  · rw [List.length_map, length_eq_of_meaning h.meaning]
  · intro k i j hi hj
    rw [List.getElem?_map] at hi
    obtain ⟨i₀, hi₀, rfl⟩ := Option.map_eq_some_iff.mp hi
    have hfits : j.fits = true := h.encodable.1 j (List.mem_of_getElem? hj)
    have hmean : j.meaning = i₀.compact.meaning :=
      (meaning_eq_at h.meaning hj hi₀).trans i₀.meaning_compact.symm
    have hcompacted := Instruction.compacted_of_meaning i₀.compact_compact hmean
    rcases hcompacted.size_le_or hfits with hle | ⟨condition, target, hlong, rfl⟩
    · exact hle
    · rw [Instruction.eq_of_compact_branch hlong] at hi₀
      exact absurd ⟨condition, hi₀, hj⟩ (hapart k target)

/-- Shrinking gets as far as any spelling that shortens no branch of the code. -/
theorem narrower_shrink (h : other.Spells code)
    (hapart : ∀ index target, ¬ Apart code other index target) :
    Narrower code.shrink other := by
  have hmeaning : (code.map Instruction.compact).map Instruction.meaning
      = other.map Instruction.meaning := by
    rw [h.meaning, List.map_map]
    exact List.map_congr_left fun i _ => i.meaning_compact
  exact (narrower_shorten _).trans (h.narrower_widen (h.narrower_compact hapart) hmeaning)

end Spells

/-! ## The smaller of two spellings -/

/-- At each place the smaller one of two instructions. -/
def meet (x y : Code) : Code :=
  List.zipWith (fun i j : Instruction => if i.size ≤ j.size then i else j) x y

theorem length_meet {x y : Code} (hlen : x.length = y.length) : (meet x y).length = x.length := by
  unfold meet
  rw [List.length_zipWith, hlen, Nat.min_self]

/-- An instruction of the meet is one of the two, and not larger than either. -/
theorem getElem?_meet {x y : Code} {k : Nat} {i : Instruction} (h : (meet x y)[k]? = some i) :
    ∃ j j', x[k]? = some j ∧ y[k]? = some j' ∧ (i = j ∨ i = j') ∧
      i.size ≤ j.size ∧ i.size ≤ j'.size := by
  unfold meet at h
  rw [List.getElem?_zipWith_eq_some] at h
  obtain ⟨j, j', hj, hj', rfl⟩ := h
  refine ⟨j, j', hj, hj', ?_⟩
  by_cases hle : j.size ≤ j'.size
  · rw [if_pos hle]
    exact ⟨Or.inl rfl, Nat.le_refl _, hle⟩
  · rw [if_neg hle]
    exact ⟨Or.inr rfl, by omega, Nat.le_refl _⟩

theorem narrower_meet_left {x y : Code} (hlen : x.length = y.length) : Narrower (meet x y) x := by
  apply forall₂_of_getElem? (length_meet hlen)
  intro k i j hi hj
  obtain ⟨j₁, j₂, hj₁, hj₂, _, hle, _⟩ := getElem?_meet hi
  rw [hj] at hj₁
  cases hj₁
  exact hle

theorem narrower_meet_right {x y : Code} (hlen : x.length = y.length) :
    Narrower (meet x y) y := by
  apply forall₂_of_getElem? ((length_meet hlen).trans hlen)
  intro k i j hi hj
  obtain ⟨j₁, j₂, hj₁, hj₂, _, _, hle⟩ := getElem?_meet hi
  rw [hj] at hj₂
  cases hj₂
  exact hle

/-- Two encodable codes of one length have an encodable meet: what reaches in one of them reaches
in code that is nowhere larger. -/
theorem Encodable.meet {x y : Code} (hx : x.Encodable) (hy : y.Encodable)
    (hlen : x.length = y.length) : (meet x y).Encodable := by
  constructor
  · intro i hi
    obtain ⟨k, hk⟩ := List.mem_iff_getElem?.mp hi
    obtain ⟨j, j', hj, hj', heq | heq, _⟩ := getElem?_meet hk
    · exact heq ▸ hx.1 j (List.mem_of_getElem? hj)
    · exact heq ▸ hy.1 j' (List.mem_of_getElem? hj')
  · intro index target condition hi
    obtain ⟨j, j', hj, hj', heq | heq, _⟩ := getElem?_meet hi
    · rw [← heq] at hj
      have hlt : index < x.length := (List.getElem?_eq_some_iff.mp hj).1
      exact reaches_of_narrower (narrower_meet_left hlen) hlt (hx.2 index target condition hj)
    · rw [← heq] at hj'
      have hlt : index < y.length := (List.getElem?_eq_some_iff.mp hj').1
      exact reaches_of_narrower (narrower_meet_right hlen) hlt (hy.2 index target condition hj')

theorem map_meaning_meet {x y : Code}
    (h : x.map Instruction.meaning = y.map Instruction.meaning) :
    (meet x y).map Instruction.meaning = y.map Instruction.meaning := by
  have hlen := length_eq_of_meaning h
  refine map_eq_of_forall₂ (R := fun i j : Instruction => j.meaning = i.meaning) (fun _ _ hr => hr)
    (forall₂_of_getElem? ((length_meet hlen).trans hlen).symm ?_)
  intro k j i hj hi
  obtain ⟨j₁, j₂, hj₁, hj₂, rfl | rfl, _⟩ := getElem?_meet hi
  · exact meaning_eq_at h hj₁ hj
  · rw [hj] at hj₂
    cases hj₂
    rfl

namespace Spells

variable {other code : Code}

theorem meet {x : Code} (hx : x.Spells code) (h : other.Spells code) :
    (meet x other).Spells code := by
  have hmeaning := hx.meaning.trans h.meaning.symm
  rw [spells_iff]
  exact ⟨(map_meaning_meet hmeaning).trans h.meaning,
    hx.encodable.meet h.encodable (length_eq_of_meaning hmeaning)⟩

/-- Code that has a spelling is shrunk to one. -/
theorem shrink (h : other.Spells code) : code.shrink.Spells code := by
  rw [spells_iff]
  refine ⟨code.map_meaning_shrink, ?_, code.shortBranchesReach_shrink⟩
  intro j hj
  obtain ⟨k, hk⟩ := List.mem_iff_getElem?.mp hj
  have hlt : k < other.length :=
    length_eq_of_meaning h.meaning_shrink ▸ (List.getElem?_eq_some_iff.mp hk).1
  have hi := List.getElem?_eq_getElem hlt
  exact (h.compacted hi hk).fits (h.encodable.1 _ (List.mem_of_getElem? hi))

/-- A branch that a spelling has short and shrunk code has long leaves room for a smaller
spelling. -/
theorem exists_smaller (h : other.Spells code) {index target : Nat}
    (ha : Apart code.shrink other index target) :
    ∃ best : Code, best.Spells code ∧ best.size < code.shrink.size := by
  obtain ⟨condition, hlong, hshort⟩ := ha
  have hlen := (length_eq_of_meaning h.meaning_shrink).symm
  refine ⟨Code.meet code.shrink other, h.shrink.meet h, ?_⟩
  have hlt : index < (Code.meet code.shrink other).length :=
    (length_meet hlen).symm ▸ (List.getElem?_eq_some_iff.mp hlong).1
  have hi := List.getElem?_eq_getElem hlt
  have hle := forall₂_getElem? (narrower_meet_right hlen) hi hshort
  have hbranch := Opcode.size_branch_short_lt condition
  exact (narrower_meet_left hlen).size_lt hi hlong (Nat.lt_of_le_of_lt hle hbranch)

end Spells

/-- **How short shrunk code is.** Shrunk code is nowhere larger than any spelling of the code that can
be written down, unless two branches that shrinking has left long lead across each other and are
short in the spelling; and then some branch that is long in the code is short in the spelling. So
shrunk code is the smallest of all spellings exactly if no spelling has such a pair. -/
theorem shrink_shortest (code : Code) :
    (∀ other : Code, other.Spells code →
      Narrower code.shrink other ∨
        (Knotted code.shrink other ∧ ∃ index target, Apart code other index target)) ∧
    ((∀ other : Code, other.Spells code → code.shrink.size ≤ other.size) ↔
      ∀ other : Code, other.Spells code → ¬ Knotted code.shrink other) := by
  refine ⟨fun other h => ?_, fun hleast other h hknot => ?_, fun hnone other h => ?_⟩
  · by_cases hapart : ∃ index target, Apart code other index target
    · exact h.narrower_or_knotted.imp_right fun hknot => ⟨hknot, hapart⟩
    · push Not at hapart
      exact Or.inl (h.narrower_shrink hapart)
  · obtain ⟨a, _, target, _, ha, _⟩ := hknot
    obtain ⟨best, hbest, hlt⟩ := h.exists_smaller ha
    exact absurd (hleast best hbest) (Nat.not_le_of_lt hlt)
  · rcases h.narrower_or_knotted with hnarrow | hknot
    · exact hnarrow.size_le
    · exact absurd hknot (hnone other h)

/-- Two branches that lead across each other, with 123 bytes between them. -/
def jumpPair (width : Width) : Code :=
  ⟨.branch .always width, .target 125⟩ ::
    (List.replicate 123 ⟨.plain .nop, .none⟩ ++ [⟨.branch .always width, .target 0⟩])

theorem spells_jumpPair (width : Width) : (jumpPair .short).Spells (jumpPair width) := by
  cases width <;> decide +kernel

/-- Neither of the long branches would reach as a short one without the other. -/
theorem size_jumpPair_lt : (jumpPair .short).size < (jumpPair .long).shrink.size := by
  decide +kernel

/-- The pair is left long where it was long, and stays short where it was short. -/
theorem shrink_shortest_jumpPair :
    (jumpPair .short).Spells (jumpPair .long) ∧
      Knotted (jumpPair .long).shrink (jumpPair .short) ∧
      Narrower (jumpPair .short).shrink (jumpPair .short) := by
  refine ⟨spells_jumpPair .long, ?_, ?_⟩
  · rcases (shrink_shortest (jumpPair .long)).1 _ (spells_jumpPair .long) with hnarrow | ⟨hknot, _⟩
    · exact absurd hnarrow.size_le (Nat.not_le_of_lt size_jumpPair_lt)
    · exact hknot
  · rcases (shrink_shortest (jumpPair .short)).1 _ (spells_jumpPair .short) with
      hnarrow | ⟨_, index, target, condition, hlong, hshort⟩
    · exact hnarrow
    · rw [hlong] at hshort
      cases hshort

/-- Shrunk code is not always the smallest spelling, even of code that can be built and has no branch
past its end. -/
theorem shrink_not_shortest :
    ¬ ∀ code other : Code,
      (∀ i ∈ code, Instruction.build i.opcode i.operand = .ok i) →
      (∀ i ∈ code, ∀ target ∈ i.target?, target ≤ code.length) →
      other.Spells code → code.shrink.size ≤ other.size := by
  intro h
  have hbuild : ∀ i ∈ jumpPair .long, Instruction.build i.opcode i.operand = .ok i := by
    decide +kernel
  have htarget : ∀ i ∈ jumpPair .long, ∀ target ∈ i.target?,
      target ≤ (jumpPair .long).length := by
    decide +kernel
  have hle := h (jumpPair .long) (jumpPair .short) hbuild htarget (spells_jumpPair .long)
  exact absurd hle (Nat.not_le_of_lt size_jumpPair_lt)

end LocalRecovery.Code
