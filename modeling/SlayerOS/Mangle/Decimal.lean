import SlayerOS.Mangle.Code

/-!
# Decimal lengths

The mangled text has the length of an identifier in decimal. `atoi` reads such a text
back as long as the number fits an `int`.
-/

open SlayerOS.Text

namespace SlayerOS.Mangle

def decimal (n : Nat) : List Byte := text (Nat.toDigits 10 n)

/-- `atoi` gives the number of which it reads the decimal digits, up to the largest `int`. -/
def ReadsDecimals (atoi : List Byte → BitVec 32) : Prop := ∀ n, n < 2 ^ 31 → (atoi (decimal n)).toNat = n

/-- The value of a text of digits. -/
def value (w : List Byte) : Nat := w.foldl (fun v c => 10 * v + (c.toNat - 48)) 0

/-- An `atoi` for texts of digits. -/
def decimal_atoi (w : List Byte) : BitVec 32 := BitVec.ofNat 32 (value w)

theorem decimal_ne_nil (n : Nat) : decimal n ≠ [] := by
  unfold decimal text
  simp [Nat.toDigits_ne_nil]

theorem ch_toNat (c : Char) (h : c.isDigit = true) : (ch c).toNat = c.toNat ∧ 48 ≤ c.toNat ∧ c.toNat ≤ 57 := by
  have h' : 48 ≤ c.toNat ∧ c.toNat ≤ 57 := Char.isDigit_iff_toNat.mp h
  unfold ch
  rw [BitVec.toNat_ofNat]
  omega

theorem decimal_isDigit (n : Nat) (c : Byte) (h : c ∈ decimal n) : is_digit c = true := by
  obtain ⟨d, hd, rfl⟩ := List.mem_map.mp h
  obtain ⟨h1, h2, h3⟩ := ch_toNat d (Nat.isDigit_of_mem_toDigits (by decide) (by decide) hd)
  unfold is_digit
  rw [h1]
  simpa using ⟨h2, h3⟩

theorem value_text (cs : List Char) (h : ∀ c ∈ cs, c.isDigit = true) : value (text cs) = Nat.ofDigitChars 10 cs 0 := by
  unfold value
  generalize 0 = v
  induction cs generalizing v with
  | nil => rfl
  | cons c cs ih =>
    rw [Nat.ofDigitChars_cons, ← ih (fun d hd => h d (by simp [hd]))]
    unfold text
    rw [List.map_cons, List.foldl_cons, (ch_toNat c (h c (by simp))).1]
    rfl

theorem value_decimal (n : Nat) : value (decimal n) = n := by
  unfold decimal
  rw [value_text _ (fun c hc => Nat.isDigit_of_mem_toDigits (by decide) (by decide) hc)]
  exact Nat.ofDigitChars_ten_toDigits

theorem decimal_atoi_reads : ReadsDecimals decimal_atoi := by
  intro n hn
  unfold decimal_atoi
  rw [value_decimal, BitVec.toNat_ofNat]
  omega

end SlayerOS.Mangle
