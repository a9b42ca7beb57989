import LocalRecovery.Module.Basic
import Mathlib.Tactic

set_option autoImplicit false

/-! # The row of a new global type

A module without a global type gets one in the row after the last one that is in use. A row has
twenty-four bits, so there is a row after the last one unless that is row `2 ^ 24 - 1`. In this case
the new type gets row 0, which names nothing and may even be in use (`ensureGlobal_row`).

All else holds of any module: the new type is empty and comes first, the others stay as they are,
and there is no second one.
-/

namespace LocalRecovery

/-! ## The two parts of a token -/

namespace Token

theorem toNat_row (t : Token) : t.row.toNat = t.value.toNat % 2 ^ 24 := by
  unfold row
  rw [UInt32.toNat_and]
  exact Nat.and_two_pow_sub_one_eq_mod _ 24

theorem toNat_table (t : Token) : t.table.toNat = t.value.toNat / 2 ^ 24 := by
  have hlt := t.value.toNat_lt
  have hshift : (t.value >>> 24).toNat = t.value.toNat / 2 ^ 24 := by
    rw [UInt32.toNat_shiftRight]
    exact Nat.shiftRight_eq_div_pow _ 24
  unfold table
  rw [UInt32.toNat_toUInt8, hshift]
  omega

/-- The two parts do not overlap. -/
theorem toNat_value_ofParts (table : UInt8) (row : UInt32) :
    (ofParts table row).value.toNat = table.toNat * 2 ^ 24 + row.toNat % 2 ^ 24 := by
  have hlt := table.toNat_lt
  have hhigh : (table.toUInt32 <<< 24).toNat = table.toNat <<< 24 := by
    rw [UInt32.toNat_shiftLeft, UInt8.toNat_toUInt32, Nat.shiftLeft_eq, Nat.shiftLeft_eq]
    show table.toNat * 2 ^ 24 % 2 ^ 32 = table.toNat * 2 ^ 24
    omega
  have hlow : (row &&& 0x00FFFFFF).toNat = row.toNat % 2 ^ 24 := by
    rw [UInt32.toNat_and]
    exact Nat.and_two_pow_sub_one_eq_mod _ 24
  unfold ofParts
  rw [UInt32.toNat_or, hhigh, hlow,
    ← Nat.shiftLeft_add_eq_or_of_lt (Nat.mod_lt _ (Nat.two_pow_pos 24)), Nat.shiftLeft_eq]

theorem table_ofParts (table : UInt8) (row : UInt32) : (ofParts table row).table = table := by
  rw [← UInt8.toNat_inj, toNat_table, toNat_value_ofParts]
  omega

theorem toNat_row_ofParts (table : UInt8) (row : UInt32) :
    (ofParts table row).row.toNat = row.toNat % 2 ^ 24 := by
  rw [toNat_row, toNat_value_ofParts]
  omega

end Token

namespace Module

/-! ## The last row in use -/

/-- Some type has the last of all rows. -/
def LastRowTaken (mod : Module) : Prop :=
  ∃ t ∈ mod.types, t.token.row = 0x00FFFFFF

instance (mod : Module) : Decidable mod.LastRowTaken :=
  inferInstanceAs (Decidable (∃ t ∈ mod.types, t.token.row = 0x00FFFFFF))

theorem foldl_max_lt_iff (l : List Nat) (start bound : Nat) :
    l.foldl max start < bound ↔ start < bound ∧ ∀ n ∈ l, n < bound := by
  induction l generalizing start with
  | nil => simp
  | cons n rest ih =>
      rw [List.foldl_cons, ih, max_lt_iff, and_assoc, List.forall_mem_cons]

theorem lastRow_lt_iff (mod : Module) {bound : Nat} (hpos : 0 < bound) :
    mod.lastRow < bound ↔ ∀ t ∈ mod.types, t.token.row.toNat < bound := by
  unfold lastRow
  rw [foldl_max_lt_iff]
  simp [hpos]

theorem row_le_lastRow {mod : Module} {t : TypeDef} (ht : t ∈ mod.types) :
    t.token.row.toNat ≤ mod.lastRow :=
  Nat.le_of_lt_succ ((mod.lastRow_lt_iff (Nat.succ_pos _)).mp (Nat.lt_succ_self _) t ht)

theorem lastRow_lt (mod : Module) : mod.lastRow < 2 ^ 24 := by
  refine (mod.lastRow_lt_iff (Nat.two_pow_pos 24)).mpr fun t _ => ?_
  rw [Token.toNat_row]
  exact Nat.mod_lt _ (Nat.two_pow_pos 24)

/-- There is a row after the last one in use, unless that is the last of all. -/
theorem not_lastRowTaken_iff (mod : Module) :
    ¬ mod.LastRowTaken ↔ mod.lastRow + 1 < 2 ^ 24 := by
  have hbound : mod.lastRow + 1 < 2 ^ 24 ↔ mod.lastRow < 0x00FFFFFF := by omega
  rw [hbound, lastRow_lt_iff mod (by decide)]
  unfold LastRowTaken
  push Not
  refine forall₂_congr fun t _ => ?_
  have hlt : t.token.row.toNat < 2 ^ 24 := by
    rw [Token.toNat_row]
    exact Nat.mod_lt _ (Nat.two_pow_pos 24)
  rw [ne_eq, ← UInt32.toNat_inj]
  show ¬ t.token.row.toNat = 0x00FFFFFF ↔ _
  omega

/-! ## The new type -/

theorem toNat_row_newGlobal (mod : Module) :
    mod.newGlobal.token.row.toNat = (mod.lastRow + 1) % 2 ^ 24 := by
  have hlt := mod.lastRow_lt
  unfold newGlobal
  rw [Token.toNat_row_ofParts, UInt32.toNat_ofNat']
  omega

/-- After the last of all rows comes row 0. -/
theorem token_newGlobal_of_taken {mod : Module} (h : mod.LastRowTaken) :
    mod.newGlobal.token = ⟨0x02000000⟩ := by
  have hlt := mod.lastRow_lt
  have hlast : mod.lastRow + 1 = 2 ^ 24 := by
    have hfull := mt mod.not_lastRowTaken_iff.mpr (not_not_intro h)
    omega
  unfold newGlobal
  rw [hlast]
  decide

theorem row_newGlobal_ne_zero_iff (mod : Module) :
    mod.newGlobal.token.row ≠ 0 ↔ ¬ mod.LastRowTaken := by
  have hlt := mod.lastRow_lt
  rw [not_lastRowTaken_iff, ne_eq, ← UInt32.toNat_inj, toNat_row_newGlobal]
  show ¬ (mod.lastRow + 1) % 2 ^ 24 = 0 ↔ _
  omega

/-- The token of the new type is that of another one only if it is row 0. -/
theorem token_ne_newGlobal_iff (mod : Module) :
    (∀ t ∈ mod.types, t.token ≠ mod.newGlobal.token) ↔
      ¬ (mod.LastRowTaken ∧ ⟨0x02000000⟩ ∈ mod.typeTokens) := by
  unfold typeTokens
  rw [List.mem_map]
  by_cases htaken : mod.LastRowTaken
  · rw [token_newGlobal_of_taken htaken]
    simp [htaken]
  · refine iff_of_true (fun t ht heq => ?_) fun h => htaken h.1
    -- its row is beyond all others
    have hle := row_le_lastRow ht
    have hrow := mod.toNat_row_newGlobal
    rw [Nat.mod_eq_of_lt (mod.not_lastRowTaken_iff.mp htaken), ← heq] at hrow
    omega

theorem isGlobal_newGlobal (mod : Module) : mod.newGlobal.isGlobal = true := by
  simp [newGlobal, TypeDef.isGlobal]

theorem ensureGlobal_of_none {mod : Module} (h : mod.global? = none) :
    mod.ensureGlobal = { mod with types := mod.newGlobal :: mod.types } := by
  unfold ensureGlobal
  rw [h]

theorem ensureGlobal_of_some {mod : Module} {t : TypeDef} (h : mod.global? = some t) :
    mod.ensureGlobal = mod := by
  unfold ensureGlobal
  rw [h]

/-- Lookups by the tokens in use find what they found before exactly if the new token is none of
them: the new type comes first. -/
theorem type_ensureGlobal_iff {mod : Module} (h : mod.global? = none) :
    (∀ token ∈ mod.typeTokens, mod.ensureGlobal.type token = mod.type token) ↔
      ∀ t ∈ mod.types, t.token ≠ mod.newGlobal.token := by
  have hother : ∀ t ∈ mod.types, ¬ t.isGlobal = true := List.find?_eq_none.mp h
  rw [ensureGlobal_of_none h]
  constructor
  · intro hsame t ht htoken
    -- a lookup of the shared token finds the new type, which was not there before
    have hfirst := hsame t.token (List.mem_map_of_mem ht)
    unfold type at hfirst
    rw [List.find?_cons_of_pos (by simp [htoken])] at hfirst
    cases hfound : mod.types.find? (·.token == t.token) with
    | none => simp [hfound] at hfirst
    | some u =>
        rw [hfound] at hfirst
        injection hfirst with heq
        exact hother u (List.mem_of_find?_eq_some hfound) (heq ▸ mod.isGlobal_newGlobal)
  · intro hne token htoken
    obtain ⟨t, ht, rfl⟩ := List.mem_map.mp htoken
    unfold type
    rw [List.find?_cons_of_neg (by simpa using (hne t ht).symm)]

/-- **The row of a new global type.** A module without a global type gets one: an empty type in
front of the others, which stay as they are and in their order. It is the global type from then on,
and a second call changes nothing. Its token belongs to the table of types. The row is not 0 exactly
if no type has the last of all rows. No other type has the token of the new one, and lookups by the
tokens in use find what they found before, unless the last row is taken and the token of row 0 is in
use as well. -/
theorem ensureGlobal_row (mod : Module) (hnone : mod.global? = none) :
    ∃ g : TypeDef,
      g = { token := g.token, space := "", name := TypeDef.globalName } ∧
      mod.ensureGlobal = { mod with types := g :: mod.types } ∧
      mod.ensureGlobal.global? = some g ∧
      mod.ensureGlobal.ensureGlobal = mod.ensureGlobal ∧
      g.token.table = Token.typeTable ∧
      (g.token.row ≠ 0 ↔ ¬ mod.LastRowTaken) ∧
      ((∀ t ∈ mod.types, t.token ≠ g.token) ↔
        ¬ (mod.LastRowTaken ∧ ⟨0x02000000⟩ ∈ mod.typeTokens)) ∧
      ((∀ token ∈ mod.typeTokens, mod.ensureGlobal.type token = mod.type token) ↔
        ¬ (mod.LastRowTaken ∧ ⟨0x02000000⟩ ∈ mod.typeTokens)) := by
  have hafter := ensureGlobal_of_none hnone
  have hglobal : mod.ensureGlobal.global? = some mod.newGlobal := by
    unfold global?
    rw [hafter]
    exact List.find?_cons_of_pos mod.isGlobal_newGlobal
  refine ⟨mod.newGlobal, rfl, hafter, hglobal, ensureGlobal_of_some hglobal,
    Token.table_ofParts _ _, mod.row_newGlobal_ne_zero_iff, mod.token_ne_newGlobal_iff, ?_⟩
  rw [type_ensureGlobal_iff hnone, token_ne_newGlobal_iff]

/-- A row after the last one, though the last one is that of a token from another table. -/
theorem ensureGlobal_row_gap :
    let mod : Module :=
      { types := [ { token := ⟨0x02000005⟩, space := "N", name := "A" },
                   { token := ⟨0x01000008⟩, space := "N", name := "B" } ] }
    mod.global? = none ∧ ∃ g, mod.ensureGlobal.global? = some g ∧ g.token.row ≠ 0 ∧
      ∀ t ∈ mod.types, t.token ≠ g.token := by
  intro mod
  have hnone : mod.global? = none := by decide
  obtain ⟨g, _, _, hglobal, _, _, hrow, htoken, _⟩ := ensureGlobal_row mod hnone
  exact ⟨hnone, g, hglobal, hrow.mpr (by decide), htoken.mpr (by decide)⟩

/-- The last row is taken, and the new type gets the token of another one, which can be looked up no
more. -/
theorem ensureGlobal_wraps :
    let mod : Module :=
      { types := [ { token := ⟨0x02FFFFFF⟩, space := "N", name := "A" },
                   { token := ⟨0x02000000⟩, space := "N", name := "B" } ] }
    mod.global? = none ∧
      mod.ensureGlobal.typeTokens = [⟨0x02000000⟩, ⟨0x02FFFFFF⟩, ⟨0x02000000⟩] ∧
      (⟨0x02000000⟩ : Token).row = 0 ∧
      mod.ensureGlobal.type ⟨0x02000000⟩ ≠ mod.type ⟨0x02000000⟩ := by
  decide

end Module

end LocalRecovery
