import LocalRecovery.Proofs.Decoding
import LocalRecovery.Signature
import Mathlib

set_option autoImplicit false

/-! # Texts have one reading

Two signatures with the same text are equal, and so are two instructions with the same text, as long
as their operands fit and are no floating-point numbers.

Each way of writing numbers is read back in its own way: hexadecimal digits of a given width from the
last to the first (`Text.hex_inj`), decimal digits with leading zeros by their value
(`Text.decimal_injective`). A signature is read from its end, where its last character tells what it
is made of, and signatures without parts differ in length (`Signature.eq_of_leaf`). An instruction is
read up to the first blank, which gives the opcode (`Instruction.opcode_eq_of_text`). The opcode tells
of what kind the operand is, and operands of one kind differ in their texts
(`OperandKind.eq_of_text`).
-/

namespace LocalRecovery

/-! ## Numbers -/

namespace Text

theorem length_hexDigits (glyph : Nat → Char) (width n : Nat) :
    (hexDigits glyph width n).length = width := by
  induction width generalizing n with
  | zero => rfl
  | succ width ih => rw [hexDigits, List.length_append, ih, List.length_singleton]

theorem digitChar_inj : ∀ a < 16, ∀ b < 16, Nat.digitChar a = Nat.digitChar b → a = b := by
  decide

/-- Digits of a given width tell the number, up to multiples of the power that they do not reach. -/
theorem mod_eq_of_hexDigits {width m n : Nat}
    (h : hexDigits Nat.digitChar width m = hexDigits Nat.digitChar width n) :
    m % 16 ^ width = n % 16 ^ width := by
  induction width generalizing m n with
  | zero => rw [Nat.pow_zero, Nat.mod_one, Nat.mod_one]
  | succ width ih =>
      rw [hexDigits, hexDigits] at h
      obtain ⟨hfront, hlast⟩ := List.append_inj' h rfl
      have hrest := ih hfront
      have hdigit : m % 16 = n % 16 := by
        injection hlast with hglyph
        exact digitChar_inj _ (Nat.mod_lt m (by decide)) _ (Nat.mod_lt n (by decide)) hglyph
      rw [Nat.pow_succ', Nat.mod_mul, Nat.mod_mul, hrest, hdigit]

theorem hex_inj {width m n : Nat} (hm : m < 16 ^ width) (hn : n < 16 ^ width)
    (h : hex width m = hex width n) : m = n := by
  have hmod := mod_eq_of_hexDigits (String.ofList_inj.mp h)
  rwa [Nat.mod_eq_of_lt hm, Nat.mod_eq_of_lt hn] at hmod

/-- Leading zeros do not change the value. -/
theorem decimal_injective (width : Nat) : Function.Injective (decimal width) := by
  intro m n h
  have hvalue : ∀ n, Nat.ofDigitChars 10 (decimal width n).toList 0 = n := by
    intro n
    unfold decimal
    rw [String.toList_ofList, Nat.ofDigitChars_append, Nat.ofDigitChars_replicate_zero,
      Nat.mul_zero, Nat.ofDigitChars_ten_toDigits]
  rw [← hvalue m, h, hvalue n]

end Text

namespace Token

theorem text_injective : Function.Injective text := by
  intro s t h
  unfold text at h
  have hvalue := Text.hex_inj s.value.toNat_lt t.value.toNat_lt ((String.append_right_inj _).mp h)
  cases s
  cases t
  exact congrArg Token.mk (UInt32.toNat_inj.mp hvalue)

theorem length_text (t : Token) : t.text.toList.length = 10 := by
  simp [text, Text.hex, Text.length_hexDigits]

/-- A text that ends in a token ends in a digit. -/
theorem getLast?_append_text (front : String) (t : Token) :
    ∃ d < 16, (front ++ t.text).toList.getLast? = some (Nat.digitChar d) := by
  refine ⟨t.value.toNat % 16, Nat.mod_lt _ (by decide), ?_⟩
  simp only [text, Text.hex, Text.hexDigits, String.toList_append, String.toList_ofList]
  rw [← List.append_assoc, ← List.append_assoc, List.getLast?_concat]

end Token

/-! ## Signatures -/

theorem Primitive.text_injective : Function.Injective Primitive.text := by
  intro p q
  cases p <;> cases q <;> decide

namespace Signature

/-- A signature without parts that are signatures. -/
def isLeaf : Signature → Bool
  | .byRef _ => false
  | .array _ => false
  | _ => true

theorem getLast?_text_byRef (inner : Signature) :
    (byRef inner).text.toList.getLast? = some '&' := by
  simp [text]

theorem getLast?_text_array (element : Signature) :
    (array element).text.toList.getLast? = some ']' := by
  simp [text]

/-- The last character tells whether there are parts. -/
theorem isLeaf_iff (s : Signature) :
    s.isLeaf = true ↔ s.text.toList.getLast? ≠ some '&' ∧ s.text.toList.getLast? ≠ some ']' := by
  have htoken : ∀ (front : String) (token : Token),
      (front ++ token.text).toList.getLast? ≠ some '&' ∧
        (front ++ token.text).toList.getLast? ≠ some ']' := by
    intro front token
    have hdigit : ∀ d < 16, Nat.digitChar d ≠ '&' ∧ Nat.digitChar d ≠ ']' := by decide
    obtain ⟨d, hd, hlast⟩ := token.getLast?_append_text front
    rw [hlast, ne_eq, ne_eq, Option.some_inj, Option.some_inj]
    exact hdigit d hd
  cases s with
  | unknown => decide
  | primitive type => cases type <;> decide
  | byRef inner => simp [isLeaf, getLast?_text_byRef]
  | array element => simp [isLeaf, getLast?_text_array]
  | valueType token => exact iff_of_true rfl (htoken _ token)
  | reference token => exact iff_of_true rfl (htoken _ token)

/-- How long the texts of leaves are. -/
theorem length_text_leaf (s : Signature) :
    match s with
    | .unknown => s.text.toList.length = 1
    | .primitive _ => 4 ≤ s.text.toList.length ∧ s.text.toList.length ≤ 11
    | .reference _ => s.text.toList.length = 16
    | .valueType _ => s.text.toList.length = 20
    | _ => True := by
  cases s with
  | unknown => decide
  | primitive type => cases type <;> decide
  | valueType token =>
      show (text (.valueType token)).toList.length = 20
      rw [text, String.toList_append, List.length_append, token.length_text]
      rfl
  | reference token =>
      show (text (.reference token)).toList.length = 16
      rw [text, String.toList_append, List.length_append, token.length_text]
      rfl
  | _ => trivial

/-- Leaves of different kinds differ in length, leaves of one kind in their names or tokens. -/
theorem eq_of_leaf {s t : Signature} (hs : s.isLeaf = true) (ht : t.isLeaf = true)
    (h : s.text = t.text) : s = t := by
  have hlength : s.text.toList.length = t.text.toList.length := by rw [h]
  have hls := length_text_leaf s
  have hlt := length_text_leaf t
  cases s with
  | unknown =>
      cases t with
      | unknown => rfl
      | byRef | array => cases ht
      | _ => dsimp only at hls hlt; omega
  | primitive type =>
      cases t with
      | primitive other => rw [Primitive.text_injective h]
      | byRef | array => cases ht
      | _ => dsimp only at hls hlt; omega
  | valueType token =>
      cases t with
      | valueType other => rw [Token.text_injective ((String.append_right_inj _).mp h)]
      | byRef | array => cases ht
      | _ => dsimp only at hls hlt; omega
  | reference token =>
      cases t with
      | reference other => rw [Token.text_injective ((String.append_right_inj _).mp h)]
      | byRef | array => cases ht
      | _ => dsimp only at hls hlt; omega
  | byRef | array => cases hs

theorem text_injective : Function.Injective text := by
  intro s
  induction s with
  | byRef inner ih =>
      intro t h
      have hlast := getLast?_text_byRef inner
      rw [h] at hlast
      cases t with
      | byRef other => rw [ih ((String.append_left_inj _).mp h)]
      | array element => simp [getLast?_text_array] at hlast
      | _ => exact absurd hlast ((isLeaf_iff _).mp rfl).1
  | array element ih =>
      intro t h
      have hlast := getLast?_text_array element
      rw [h] at hlast
      cases t with
      | byRef inner => simp [getLast?_text_byRef] at hlast
      | array other => rw [ih ((String.append_left_inj _).mp h)]
      | _ => exact absurd hlast ((isLeaf_iff _).mp rfl).2
  | _ =>
      intro t h
      refine eq_of_leaf rfl ?_ h
      rw [isLeaf_iff, ← h, ← isLeaf_iff]
      rfl

end Signature

/-! ## Operands -/

theorem Operand.text_ofSlot_inj {area area' : Area} {index index' : UInt16}
    (h : (Operand.ofSlot area index).text = (Operand.ofSlot area' index').text) :
    Operand.ofSlot area index = Operand.ofSlot area' index' := by
  cases area with
  | locals =>
      cases area' with
      | locals =>
          have hnat := Nat.repr_injective ((String.append_right_inj _).mp h)
          rw [UInt16.toNat_inj.mp hnat]
      | arguments =>
          have hlist := congrArg String.toList h
          simp [Operand.ofSlot, Operand.text] at hlist
  | arguments =>
      cases area' with
      | locals =>
          have hlist := congrArg String.toList h
          simp [Operand.ofSlot, Operand.text] at hlist
      | arguments =>
          have hnat := Nat.repr_injective ((String.append_right_inj _).mp h)
          rw [UInt16.toNat_inj.mp hnat]

/-- Operands of one kind differ in their texts, floating-point numbers apart. -/
theorem OperandKind.Admitted.eq_of_text {kind : OperandKind} {x y : Operand} (hx : kind.Admitted x)
    (hy : kind.Admitted y) (hkind : kind ≠ .float64) (h : x.text = y.text) : x = y := by
  cases hx with
  | none =>
      cases hy
      rfl
  | slot area index hx =>
      cases hy with
      | slot area' index' hy =>
          subst hx hy
          exact Operand.text_ofSlot_inj h
  | int8 =>
      cases hy with
      | int8 => rw [Int8.toInt_inj.mp (Int.repr_injective h)]
  | int32 =>
      cases hy with
      | int32 => rw [Int32.toInt_inj.mp (Int.repr_injective h)]
  | int64 =>
      cases hy with
      | int64 => rw [Int64.toInt_inj.mp (Int.repr_injective h)]
  | float64 => exact absurd rfl hkind
  | token =>
      cases hy with
      | token => rw [Token.text_injective h]
  | target =>
      cases hy with
      | target => rw [Text.decimal_injective 4 ((String.append_right_inj _).mp h)]

/-! ## Instructions -/

namespace Opcode

theorem mnemonic_injective : Function.Injective mnemonic := by
  intro op op' h
  have hread := ofMnemonic?_mnemonic op
  rw [h, ofMnemonic?_mnemonic op'] at hread
  injection hread with heq
  exact heq.symm

theorem blank_notMem_mnemonic (op : Opcode) : ' ' ∉ op.mnemonic.toList := by
  have htable : ∀ op ∈ all, ' ' ∉ op.mnemonic.toList := by decide +kernel
  exact htable op (mem_all op)

end Opcode

namespace Instruction

/-- The text is the name of the opcode, and the operand behind a blank if there is one. -/
theorem text_eq (i : Instruction) :
    i.text = i.opcode.mnemonic ++ if i.operand = .none then "" else " " ++ i.operand.text := by
  rcases i with ⟨opcode, operand⟩
  cases operand <;> simp [text, String.append_assoc]

/-- What stands before the first blank is the name of the opcode. -/
theorem takeWhile_text (i : Instruction) :
    i.text.toList.takeWhile (· != ' ') = i.opcode.mnemonic.toList := by
  have hname : ∀ c ∈ i.opcode.mnemonic.toList, (c != ' ') = true := by
    intro c hc
    have hne : c ≠ ' ' := fun heq => i.opcode.blank_notMem_mnemonic (heq ▸ hc)
    simpa using hne
  rw [text_eq, String.toList_append, List.takeWhile_append_of_pos hname]
  split_ifs <;> simp

theorem opcode_eq_of_text {i j : Instruction} (h : i.text = j.text) : i.opcode = j.opcode := by
  apply Opcode.mnemonic_injective
  rw [← String.toList_inj, ← takeWhile_text, ← takeWhile_text, h]

/-- Instructions whose operands fit differ in their texts, floating-point numbers apart. -/
theorem eq_of_text {i j : Instruction} (hi : i.fits = true) (hj : j.fits = true)
    (hfloat : ∀ value, i.operand ≠ .immediate (.float64 value)) (h : i.text = j.text) : i = j := by
  have hop := opcode_eq_of_text h
  rcases i with ⟨opcode, x⟩
  rcases j with ⟨opcode', y⟩
  cases hop
  have hkind : opcode.operandKind ≠ .float64 := by
    intro hkind
    have hadmitted := fits_iff.mp hi
    rw [hkind] at hadmitted
    cases hadmitted with
    | float64 value => exact hfloat value rfl
  have hblank : ∀ operand : Operand, " " ++ operand.text ≠ "" := by
    intro operand hempty
    have hlist := congrArg String.toList hempty
    simp at hlist
  suffices hoperand : x = y by rw [hoperand]
  rw [text_eq, text_eq, String.append_right_inj] at h
  split_ifs at h with hx hy hy
  · exact hx.trans hy.symm
  · exact absurd h.symm (hblank y)
  · exact absurd h (hblank x)
  · exact (fits_iff.mp hi).eq_of_text (fits_iff.mp hj) hkind ((String.append_right_inj _).mp h)

end Instruction

/-- **Texts have one reading.** Two signatures with the same text are equal, however deeply nested.
Two instructions that can be built are equal if they have the same text, as soon as the operand of one
of them is no floating-point number. -/
theorem text_unambiguous :
    Function.Injective Signature.text ∧
    ∀ i j : Instruction,
      Instruction.build i.opcode i.operand = .ok i →
      Instruction.build j.opcode j.operand = .ok j →
      (∀ value, i.operand ≠ .immediate (.float64 value)) →
      i.text = j.text → i = j := by
  refine ⟨Signature.text_injective, ?_⟩
  intro i j hi hj hfloat h
  exact Instruction.eq_of_text (i.build_eq_ok_iff.mp hi) (j.build_eq_ok_iff.mp hj) hfloat h

/-- One text for the shortest load of a variable and for the load that is spelled so from the start,
which is the same instruction. Another text for the argument of the same number, and for nested
signatures that differ in their order only. -/
theorem text_unambiguous_slots :
    let i : Instruction := (Instruction.mk (.slot ⟨.locals, .read⟩ .long) (.localSlot 4)).compact
    let j : Instruction := ⟨.slot ⟨.locals, .read⟩ .short, .localSlot 4⟩
    let k : Instruction := ⟨.slot ⟨.locals, .read⟩ .short, .argumentSlot 4⟩
    Instruction.build i.opcode i.operand = .ok i ∧ Instruction.build j.opcode j.operand = .ok j ∧
      Instruction.build k.opcode k.operand = .ok k ∧ i.text = j.text ∧ i = j ∧ j.text ≠ k.text ∧
      (Signature.array (.byRef .unknown)).text ≠ (Signature.byRef (.array .unknown)).text := by
  intro i j k
  obtain ⟨hsignature, hinstruction⟩ := text_unambiguous
  have hi : Instruction.build i.opcode i.operand = .ok i := by decide
  have hj : Instruction.build j.opcode j.operand = .ok j := by decide
  have hk : Instruction.build k.opcode k.operand = .ok k := by decide
  have htext : i.text = j.text := by decide
  refine ⟨hi, hj, hk, htext, ?_, ?_, ?_⟩
  · exact hinstruction i j hi hj (fun _ h => by cases h) htext
  · intro h
    have heq := hinstruction j k hj hk (fun _ h => by cases h) h
    exact absurd heq (by decide)
  · intro h
    cases hsignature h

end LocalRecovery
