import Dataflow.Constant
import Dataflow.Proofs.Text
import Mathlib

/-!
# Constants are two's complement values

A constant of `b` bits that is made from a word keeps the word modulo `2 ^ b`
(`Constant.unsigned_ofWord`). Its signed reading is the balanced residue of the word, whatever stands
in the bits above (`Constant.signed_eq_bmod`), so it is the one integer in its range that is congruent
to the word. The hexadecimal form can be read back (`Constant.readHex?_hex`), and the text of a
constant determines it (`Constant.eq_of_text`) if the bits above its width are clear, as they are in all
constants that are made (`Constant.Made`).
-/

namespace Dataflow

namespace Width

variable (w : Width)

theorem eq_of_bits {w w' : Width} (h : w.bits = w'.bits) : w = w' := by
  cases w
  cases w'
  simpa using h

/-- A word is the bits of a width and the bits above it. -/
theorem two_pow_word : 2 ^ 64 = 2 ^ (64 - w.bits) * 2 ^ w.bits := by
  rw [← Nat.pow_add, Nat.sub_add_cancel w.le]

theorem two_pow_bits : 2 ^ w.bits = 2 * 2 ^ (w.bits - 1) := by
  rw [← Nat.pow_succ', Nat.succ_eq_add_one, Nat.sub_add_cancel w.pos]

theorem toNat_mask : w.mask.toNat = 2 ^ w.bits - 1 := by
  rw [mask, BitVec.toNat_ushiftRight, BitVec.toNat_allOnes, Nat.shiftRight_eq_div_pow, w.two_pow_word]
  have hpos := Nat.mul_pos (Nat.two_pow_pos (64 - w.bits)) (Nat.two_pow_pos w.bits)
  simpa using Nat.mul_sub_div 0 (2 ^ (64 - w.bits)) (2 ^ w.bits) hpos

end Width

namespace Constant

/-! ## Values -/

theorem unsigned_ofWord (w : Width) (v : BitVec 64) :
    (ofWord w v).unsigned = v.toNat % 2 ^ w.bits := by
  rw [unsigned, ofWord, BitVec.toNat_and, w.toNat_mask, Nat.and_two_pow_sub_one_eq_mod]

/-- The bits above the width are moved out of the word, and the sign fills the way back. -/
theorem signed_eq_bmod (c : Constant) : c.signed = (c.unsigned : Int).bmod (2 ^ c.width.bits) := by
  have hpos := Nat.two_pow_pos (64 - c.width.bits)
  have heven : 2 ∣ 2 ^ c.width.bits := ⟨_, c.width.two_pow_bits⟩
  rw [signed, BitVec.toInt_sshiftRight, BitVec.toInt_shiftLeft, Nat.shiftLeft_eq, Nat.mul_comm,
    c.width.two_pow_word, Nat.cast_mul, Int.mod_bmod_mul_of_pos _ _ hpos heven,
    Int.shiftRight_eq_div_pow, Int.mul_ediv_cancel_left _ (by exact_mod_cast hpos.ne')]
  rfl

/-- The signed reading is the integer in its range that is congruent to the word. -/
theorem eq_signed_iff {c : Constant} {z : Int} : z = c.signed ↔
    -2 ^ (c.width.bits - 1) ≤ z ∧ z < 2 ^ (c.width.bits - 1) ∧
      z ≡ c.unsigned [ZMOD 2 ^ c.width.bits] := by
  have hbits : (2 ^ c.width.bits : Int) = 2 * 2 ^ (c.width.bits - 1) := by
    exact_mod_cast c.width.two_pow_bits
  have hlow : (2 * 2 ^ (c.width.bits - 1) : Int) / 2 = 2 ^ (c.width.bits - 1) := by omega
  have hhigh : (2 * 2 ^ (c.width.bits - 1) + 1 : Int) / 2 = 2 ^ (c.width.bits - 1) := by omega
  rw [eq_comm, signed_eq_bmod, Int.bmod_eq_iff (Nat.two_pow_pos _), Int.modEq_comm, Int.modEq_iff_dvd]
  push_cast
  rw [hbits, hlow, hhigh]

/-- The bits above the width are clear. -/
def Fits (c : Constant) : Prop := c.unsigned < 2 ^ c.width.bits

theorem eq_of_unsigned {c d : Constant} (hwidth : c.width = d.width)
    (hunsigned : c.unsigned = d.unsigned) : c = d := by
  obtain ⟨w, v⟩ := c
  obtain ⟨w', v'⟩ := d
  obtain rfl : w = w' := hwidth
  obtain rfl : v = v' := BitVec.eq_of_toNat_eq hunsigned
  rfl

theorem Fits.unsigned_eq {c : Constant} (hc : c.Fits) :
    (c.unsigned : Int) = c.signed % 2 ^ c.width.bits := by
  have hlt : (c.unsigned : Int) < (2 ^ c.width.bits : Nat) := Int.ofNat_lt.2 hc
  calc (c.unsigned : Int) = c.unsigned % (2 ^ c.width.bits : Nat) :=
        (Int.emod_eq_of_lt (Int.natCast_nonneg _) hlt).symm
    _ = c.signed % (2 ^ c.width.bits : Nat) := by rw [signed_eq_bmod, Int.bmod_emod]
    _ = c.signed % 2 ^ c.width.bits := by push_cast; rfl

theorem eq_of_signed {c d : Constant} (hc : c.Fits) (hd : d.Fits) (hwidth : c.width = d.width)
    (hsigned : c.signed = d.signed) : c = d := by
  refine eq_of_unsigned hwidth ?_
  have hunsigned : (c.unsigned : Int) = d.unsigned := by
    rw [hc.unsigned_eq, hd.unsigned_eq, hsigned, hwidth]
  exact_mod_cast hunsigned

theorem fits_ofWord (w : Width) (v : BitVec 64) : (ofWord w v).Fits := by
  rw [Fits, unsigned_ofWord]
  exact Nat.mod_lt _ (Nat.two_pow_pos _)

/-- An integer that is made into a constant through a word is kept modulo `2 ^ b`. -/
theorem unsigned_ofWord_ofInt (w : Width) (z : Int) :
    ((ofWord w (BitVec.ofInt 64 z)).unsigned : Int) = z % 2 ^ w.bits := by
  have hnonneg : 0 ≤ z % ((2 ^ 64 : Nat) : Int) := Int.emod_nonneg _ (by decide)
  have hdvd : ((2 ^ w.bits : Nat) : Int) ∣ ((2 ^ 64 : Nat) : Int) :=
    Int.natCast_dvd_natCast.2 (Nat.pow_dvd_pow 2 w.le)
  rw [unsigned_ofWord, BitVec.toNat_ofInt, Int.natCast_emod, Int.toNat_of_nonneg hnonneg,
    Int.emod_emod_of_dvd _ hdvd]
  push_cast
  rfl

/-- The signed reading makes the same constant. -/
theorem Fits.ofWord_signed {c : Constant} (hc : c.Fits) :
    ofWord c.width (BitVec.ofInt 64 c.signed) = c := by
  refine eq_of_unsigned rfl ?_
  have hunsigned := unsigned_ofWord_ofInt c.width c.signed
  rw [← hc.unsigned_eq] at hunsigned
  exact_mod_cast hunsigned

/-! ## The hexadecimal form -/

theorem readHex?_hex (c : Constant) : readHex? c.hex = some c.unsigned := by
  rw [readHex?, hex, String.toList_ofList, List.leftpad, readDigits?_append, readDigits?_zeros]
  exact readDigits?_toDigits c.unsigned

theorem hexWidth_eq (w : Width) : hexWidth w = w.bits ⌈/⌉ 4 := by
  rw [hexWidth, Nat.ceilDiv_eq_add_pred_div]
  split <;> omega

theorem Fits.length_hex {c : Constant} (hc : c.Fits) : c.hex.length = c.width.bits ⌈/⌉ 4 := by
  have hwidth := hexWidth_eq c.width
  have hpos := c.width.pos
  have hlong : c.width.bits ≤ 4 * hexWidth c.width := by
    rw [hexWidth]
    split <;> omega
  have hdigits : (Nat.toDigits 16 c.unsigned).length ≤ hexWidth c.width := by
    rw [Nat.length_toDigits_le_iff (by decide) (by omega)]
    calc c.unsigned < 2 ^ c.width.bits := hc
      _ ≤ 2 ^ (4 * hexWidth c.width) := Nat.pow_le_pow_right (by decide) hlong
      _ = 16 ^ hexWidth c.width := by rw [Nat.pow_mul]
  rw [hex, String.length_ofList, List.length_leftpad, ← hwidth]
  exact Nat.max_eq_left hdigits

/-! ## The text -/

theorem toList_text {c : Constant} (hc : c.width ≠ .w1) :
    c.text.toList = 'i' :: (Nat.toDigits 10 c.width.bits ++ ' ' :: c.signed.repr.toList) := by
  have htext : c.text = "i" ++ c.width.bits.repr ++ " " ++ c.signed.repr := if_neg hc
  rw [htext]
  simp

theorem text_of_w1 {c : Constant} (hc : c.width = .w1) :
    c.text = if c.word = 0 then "false" else "true" := if_pos hc

/-- A truth value is written in letters of its own. -/
theorem text_ne_of_w1 {c d : Constant} (hc : c.width = .w1) (hd : d.width ≠ .w1) :
    c.text ≠ d.text := by
  intro h
  have hhead := congrArg (·.toList.head?) h
  simp only [toList_text hd, text_of_w1 hc, List.head?_cons] at hhead
  split at hhead
  · exact absurd hhead (by decide)
  · exact absurd hhead (by decide)

theorem text_eq_false_iff {c : Constant} (hc : c.width = .w1) :
    c.text = "false" ↔ c.unsigned = 0 := by
  have hzero : c.word = 0 ↔ c.unsigned = 0 := by
    rw [← BitVec.toNat_inj]
    rfl
  rw [text_of_w1 hc, ← hzero]
  split
  · simp_all
  · simp_all

theorem eq_of_text_w1 {c d : Constant} (hc : c.Fits) (hd : d.Fits) (hcw : c.width = .w1)
    (hdw : d.width = .w1) (h : c.text = d.text) : c = d := by
  have hbit : c.unsigned = 0 ↔ d.unsigned = 0 := by
    rw [← text_eq_false_iff hcw, ← text_eq_false_iff hdw, h]
  have hc : c.unsigned < 2 := by simpa [Fits, hcw, Width.w1] using hc
  have hd : d.unsigned < 2 := by simpa [Fits, hdw, Width.w1] using hd
  exact eq_of_unsigned (hcw.trans hdw.symm) (by omega)

/-- The text of a constant determines it. -/
theorem eq_of_text {c d : Constant} (hc : c.Fits) (hd : d.Fits) (h : c.text = d.text) : c = d := by
  by_cases hcw : c.width = .w1
  · by_cases hdw : d.width = .w1
    · exact eq_of_text_w1 hc hd hcw hdw h
    · exact absurd h (text_ne_of_w1 hcw hdw)
  · by_cases hdw : d.width = .w1
    · exact absurd h.symm (text_ne_of_w1 hdw hcw)
    · have hlist := congrArg String.toList h
      rw [toList_text hcw, toList_text hdw] at hlist
      obtain ⟨hbits, hsigned⟩ := eq_of_append_cons (blank_not_mem_toDigits _)
        (blank_not_mem_toDigits _) (List.cons.inj hlist).2
      have hwidth : c.width = d.width := Width.eq_of_bits (toDigits_ten_inj hbits)
      exact eq_of_signed hc hd hwidth (Int.repr_injective (String.toList_inj.1 hsigned))

/-! ## Constants that are made -/

/-- The constants that the library makes from numbers and truth values. -/
inductive Made : Constant → Prop
  | ofWord (w : Width) (v : BitVec 64) : Made (ofWord w v)
  | ofBool (b : Bool) : Made (ofBool b)
  | ofWord32 (v : BitVec 32) : Made (ofWord32 v)
  | ofWord64 (v : BitVec 64) : Made (ofWord64 v)

theorem Made.fits {c : Constant} (hc : Made c) : c.Fits := by
  cases hc with
  | ofWord w v => exact fits_ofWord w v
  | ofBool b =>
    rw [Fits]
    cases b <;> decide
  | ofWord32 v =>
    rw [Fits, unsigned, Constant.ofWord32, BitVec.toNat_setWidth]
    exact Nat.lt_of_le_of_lt (Nat.mod_le _ _) v.isLt
  | ofWord64 v => exact v.isLt

/-- **Constants are two's complement values with an unambiguous text.** A constant of `b` bits that is
made from a word is the word modulo `2 ^ b`. Its signed reading is the one integer from `-2 ^ (b - 1)`
up to `2 ^ (b - 1)` that is congruent to the word, and makes the same constant again. Its hexadecimal
form has a digit for every four bits or part of them, and denotes it. Of the constants that are made,
whatever their widths, no two have the same text. -/
theorem ofWord_twosComplement :
    (∀ (w : Width) (v : BitVec 64),
      (ofWord w v).unsigned = v.toNat % 2 ^ w.bits ∧
      (∀ z : Int, z = (ofWord w v).signed ↔
        -2 ^ (w.bits - 1) ≤ z ∧ z < 2 ^ (w.bits - 1) ∧ z ≡ v.toNat [ZMOD 2 ^ w.bits]) ∧
      ofWord w (BitVec.ofInt 64 (ofWord w v).signed) = ofWord w v ∧
      (ofWord w v).hex.length = w.bits ⌈/⌉ 4 ∧
      readHex? (ofWord w v).hex = some (ofWord w v).unsigned) ∧
    ∀ c d, Made c → Made d → c.text = d.text → c = d := by
  refine ⟨fun w v => ?_, fun c d hc hd => eq_of_text hc.fits hd.fits⟩
  have hfits := fits_ofWord w v
  refine ⟨unsigned_ofWord w v, fun z => ?_, hfits.ofWord_signed, hfits.length_hex, readHex?_hex _⟩
  have hword : ((ofWord w v).unsigned : Int) ≡ v.toNat [ZMOD 2 ^ w.bits] := by
    rw [unsigned_ofWord]
    push_cast
    exact Int.mod_modEq _ _
  rw [eq_signed_iff]
  exact and_congr_right' (and_congr_right' ⟨fun h => h.trans hword, fun h => h.trans hword.symm⟩)

theorem ofWord_twosComplement_fiveBits :
    (ofWord { bits := 5 } 0x7F0).unsigned = 16 ∧ (ofWord { bits := 5 } 0x7F0).signed = -16 ∧
    (ofWord { bits := 5 } 0x7F0).hex = "10" ∧ readHex? "10" = some 16 ∧
    ofWord { bits := 5 } (BitVec.ofInt 64 (-16)) = ofWord { bits := 5 } 0x7F0 ∧
    (ofWord32 0xFFFFFFFF).text = "i32 -1" ∧ (ofWord .w32 0x1FFFFFFFF).text = "i32 -1" ∧
    ofWord .w32 0x1FFFFFFFF = ofWord32 0xFFFFFFFF := by
  obtain ⟨hvalues, htexts⟩ := ofWord_twosComplement
  obtain ⟨-, -, hsame, -, hread⟩ := hvalues { bits := 5 } 0x7F0
  have hsigned : (ofWord { bits := 5 } 0x7F0).signed = -16 := by decide +kernel
  have hhex : (ofWord { bits := 5 } 0x7F0).hex = "10" := by decide +kernel
  have hunsigned : (ofWord { bits := 5 } 0x7F0).unsigned = 16 := by decide +kernel
  have htext : (ofWord32 0xFFFFFFFF).text = "i32 -1" := by decide +kernel
  have htext' : (ofWord .w32 0x1FFFFFFFF).text = "i32 -1" := by decide +kernel
  rw [hsigned] at hsame
  rw [hhex, hunsigned] at hread
  exact ⟨hunsigned, hsigned, hhex, hread, hsame, htext, htext',
    htexts _ _ (.ofWord _ _) (.ofWord32 _) (htext'.trans htext.symm)⟩

end Constant

end Dataflow
