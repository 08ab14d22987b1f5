/-!
# Reading texts

What a text says can be read off it again: where a character divides it that its first part does not
have (`eq_of_append_cons`), and the numbers that its digits stand for, decimal
(`toDigits_ten_inj`) and hexadecimal (`readHex?`).
-/

namespace Dataflow

/-- Two texts that are divided by the same character, which neither of their first parts has. -/
theorem eq_of_append_cons {c : Char} {a a' b b' : List Char} (ha : c ∉ a) (ha' : c ∉ a')
    (h : a ++ c :: b = a' ++ c :: b') : a = a' ∧ b = b' := by
  induction a generalizing a' with
  | nil =>
    cases a' with
    | nil => exact ⟨rfl, (List.cons.inj h).2⟩
    | cons x a' => exact absurd (List.cons.inj h).1 fun hx => ha' (hx ▸ List.mem_cons_self)
  | cons x a ih =>
    cases a' with
    | nil => exact absurd (List.cons.inj h).1 fun hx => ha (hx ▸ List.mem_cons_self)
    | cons y a' =>
      obtain ⟨rfl, htail⟩ := List.cons.inj h
      obtain ⟨rfl, rfl⟩ := ih (fun hc => ha (List.mem_cons_of_mem _ hc))
        (fun hc => ha' (List.mem_cons_of_mem _ hc)) htail
      exact ⟨rfl, rfl⟩

theorem toDigits_ten_inj {i j : Nat} (h : Nat.toDigits 10 i = Nat.toDigits 10 j) : i = j := by
  have hnumber := congrArg (Nat.ofDigitChars 10 · 0) h
  simpa using hnumber

theorem blank_not_mem_toDigits (n : Nat) : ' ' ∉ Nat.toDigits 10 n := fun hn =>
  absurd (Nat.isDigit_of_mem_toDigits (by decide) (by decide) hn) (by decide)

/-! ## Hexadecimal digits -/

/-- The number that a lower-case hexadecimal digit stands for. -/
def hexDigit? (c : Char) : Option Nat :=
  if '0' ≤ c ∧ c ≤ '9' then some (c.toNat - '0'.toNat)
  else if 'a' ≤ c ∧ c ≤ 'f' then some (c.toNat - 'a'.toNat + 10)
  else none

/-- Reads digits behind those that have been read as `n`, the most significant one first. -/
def readDigits? (n : Nat) (digits : List Char) : Option Nat :=
  digits.foldlM (fun n c => (hexDigit? c).map (16 * n + ·)) n

/-- The number that a text of lower-case hexadecimal digits denotes. -/
def readHex? (text : String) : Option Nat := readDigits? 0 text.toList

theorem hexDigit?_digitChar : ∀ d < 16, hexDigit? d.digitChar = some d := by decide

theorem readDigits?_append (n : Nat) (xs ys : List Char) :
    readDigits? n (xs ++ ys) = (readDigits? n xs).bind fun m => readDigits? m ys :=
  List.foldlM_append

theorem readDigits?_toDigits (n : Nat) : readDigits? 0 (Nat.toDigits 16 n) = some n := by
  induction n using Nat.strongRecOn with
  | ind n ih =>
    by_cases hn : n < 16
    · rw [Nat.toDigits_of_lt_base hn]
      simp [readDigits?, hexDigit?_digitChar n hn]
    · have hlast := hexDigit?_digitChar (n % 16) (Nat.mod_lt n (by decide))
      rw [Nat.toDigits_of_base_le (by decide) (Nat.le_of_not_lt hn), readDigits?_append,
        ih (n / 16) (Nat.div_lt_self (by omega) (by decide))]
      simp [readDigits?, hlast, Nat.div_add_mod]

theorem readDigits?_zeros (k : Nat) : readDigits? 0 (List.replicate k '0') = some 0 := by
  induction k with
  | zero => rfl
  | succ k ih =>
    rw [List.replicate_succ', readDigits?_append, ih]
    rfl

end Dataflow
