import NetworkingLearning.Machine.Words
import Mathlib.Data.List.DropRight

/-!
# Decimal numbers in a text

A text is a list of bytes. `printInt` is the `%d` of `printf`; `strtol` is the function of the C
library with base 10, which skips white space, takes a sign and digits, gives the nearest `long`,
and says how many bytes it has read. `atoi` is the `int` of what `strtol` gives.

* A text without digits is `0` of no bytes, as `endptr` is the start then.
* White space is that of `isspace` in the C locale.

Results:
* `value_decimal`: the digits of a number have its value.
* `strtol_digits`: digits are read as the number they stand for.
* `strtol_printInt`: what is printed is read back, over the range of a `long`.
-/

namespace NetworkingLearning.Text

open NetworkingLearning.Machine

/-- The bytes of a text in ASCII. -/
def ascii (s : String) : List UInt8 := s.toList.map fun c => UInt8.ofNat c.toNat

/-! ## Digits -/

/-- `isdigit`. -/
def isDigit (b : UInt8) : Bool := 48 ≤ b.toNat && b.toNat ≤ 57

/-- `isspace`: a blank, or one of `\t`, `\n`, `\v`, `\f`, `\r`. -/
def isSpace (b : UInt8) : Bool := b.toNat = 32 || (9 ≤ b.toNat && b.toNat ≤ 13)

/-- The number that a list of digits stands for. -/
def value (digits : List UInt8) : ℕ := digits.foldl (fun v b => 10 * v + (b.toNat - 48)) 0

/-- The digits of a number. -/
def decimal (n : ℕ) : List UInt8 := (Nat.toDigits 10 n).map fun c => UInt8.ofNat c.toNat

section Digits

variable {n : ℕ} {b : UInt8} {c : Char}

theorem toNat_of_mem_toDigits (hc : c ∈ Nat.toDigits 10 n) :
    (UInt8.ofNat c.toNat).toNat = c.toNat ∧ 48 ≤ c.toNat ∧ c.toNat ≤ 57 := by
  have hdigit := Nat.isDigit_of_mem_toDigits (by decide) (by decide) hc
  simp only [Char.isDigit, Bool.and_eq_true, decide_eq_true_eq] at hdigit
  have h48 : 48 ≤ c.toNat := hdigit.1
  have h57 : c.toNat ≤ 57 := hdigit.2
  exact ⟨UInt8.toNat_ofNat_of_lt' (by show c.toNat < 256; omega), h48, h57⟩

@[simp] theorem value_decimal (n : ℕ) : value (decimal n) = n := by
  rw [value, decimal, List.foldl_map]
  refine Eq.trans ?_ Nat.ofDigitChars_ten_toDigits
  rw [Nat.ofDigitChars_eq_foldl]
  refine List.foldl_ext _ _ _ fun v c hc => ?_
  rw [(toNat_of_mem_toDigits hc).1]
  rfl

theorem isDigit_of_mem_decimal (hb : b ∈ decimal n) : isDigit b := by
  obtain ⟨c, hc, rfl⟩ := List.mem_map.mp hb
  obtain ⟨heq, h48, h57⟩ := toNat_of_mem_toDigits hc
  simp only [isDigit, heq, h48, h57, decide_true, Bool.and_self]

@[simp] theorem decimal_ne_nil (n : ℕ) : decimal n ≠ [] := by
  rw [decimal, Ne, List.map_eq_nil_iff]
  exact Nat.toDigits_ne_nil

theorem not_isSpace_of_isDigit (h : isDigit b) : isSpace b = false := by
  simp only [isDigit, isSpace, Bool.and_eq_true, decide_eq_true_eq, Bool.or_eq_false_iff,
    decide_eq_false_iff_not, Bool.and_eq_false_iff] at h ⊢
  omega

end Digits

/-! ## Signed numbers -/

/-- `%d`. -/
def printInt (v : ℤ) : List UInt8 := if v < 0 then 45 :: decimal v.natAbs else decimal v.natAbs

/-- A sign at the start: whether it is a minus, and what follows. -/
def sign (s : List UInt8) : Bool × List UInt8 :=
  if s.head? = some 45 then (true, s.tail)
  else if s.head? = some 43 then (false, s.tail)
  else (false, s)

/-- What is printed is a minus sign or digits. -/
theorem mem_printInt {v : ℤ} {b : UInt8} (hb : b ∈ printInt v) : b = 45 ∨ isDigit b := by
  unfold printInt at hb
  split at hb
  · exact (List.mem_cons.mp hb).imp_right isDigit_of_mem_decimal
  · exact Or.inr (isDigit_of_mem_decimal hb)

@[simp] theorem printInt_ne_nil (v : ℤ) : printInt v ≠ [] := by
  unfold printInt
  split
  · exact List.cons_ne_nil _ _
  · exact decimal_ne_nil _

/-- The nearest `long`. -/
def clampLong (v : ℤ) : ℤ := max (-2 ^ 63) (min v (2 ^ 63 - 1))

/-- `strtol` with base 10: the number, and how many bytes have been read. -/
def strtol (s : List UInt8) : ℤ × ℕ :=
  let (minus, t) := sign (s.dropWhile isSpace)
  let digits := t.takeWhile isDigit
  if digits = [] then (0, 0)
  else (clampLong (if minus then -(value digits : ℤ) else value digits),
    s.length - (t.dropWhile isDigit).length)

/-- `atoi`: the `long` as an `int`. -/
def atoi (s : List UInt8) : ℤ := toInt (strtol s).1

theorem clampLong_of_mem {v : ℤ} (h : -2 ^ 63 ≤ v) (h' : v < 2 ^ 63) : clampLong v = v := by
  unfold clampLong
  omega

section Printed

variable {v : ℤ} {n : ℕ} {digits rest : List UInt8}

/-- The digits end where what follows is none. -/
theorem span_digits (hall : ∀ b ∈ digits, isDigit b) (hrest : ∀ b ∈ rest.head?, isDigit b = false) :
    (digits ++ rest).takeWhile isDigit = digits ∧ (digits ++ rest).dropWhile isDigit = rest := by
  rw [List.takeWhile_append_of_pos hall, List.dropWhile_append_of_pos hall]
  cases rest with
  | nil => simp
  | cons b rest =>
    have hb : ¬ isDigit b := by simp [hrest b rfl]
    rw [List.takeWhile_cons_of_neg hb, List.dropWhile_cons_of_neg hb, List.append_nil]
    exact ⟨rfl, rfl⟩

/-- Nothing is in front of a digit. -/
theorem sign_digits (hne : digits ≠ []) (hall : ∀ b ∈ digits, isDigit b) (rest : List UInt8) :
    sign ((digits ++ rest).dropWhile isSpace) = (false, digits ++ rest) := by
  obtain ⟨d, ds, rfl⟩ := List.exists_cons_of_ne_nil hne
  have hd : isDigit d := hall d List.mem_cons_self
  have h45 : d ≠ 45 := by
    rintro rfl
    exact absurd hd (by decide)
  have h43 : d ≠ 43 := by
    rintro rfl
    exact absurd hd (by decide)
  have hspace : ¬ isSpace d := by simp [not_isSpace_of_isDigit hd]
  rw [List.cons_append, List.dropWhile_cons_of_neg hspace, sign, List.head?_cons,
    if_neg (by simpa using h45), if_neg (by simpa using h43)]

/-- **Digits are read** as the number they stand for. -/
theorem strtol_digits (hne : digits ≠ []) (hall : ∀ b ∈ digits, isDigit b)
    (hlt : value digits < 2 ^ 63) (hrest : ∀ b ∈ rest.head?, isDigit b = false) :
    strtol (digits ++ rest) = ((value digits : ℤ), digits.length) := by
  obtain ⟨htake, hdrop⟩ := span_digits hall hrest
  simp only [strtol, sign_digits hne hall, htake, hdrop]
  rw [if_neg hne, if_neg Bool.false_ne_true, clampLong_of_mem (by omega) (by omega),
    List.length_append, Nat.add_sub_cancel]

/-- Digits that fit are read as an `int`. -/
theorem atoi_digits (hne : digits ≠ []) (hall : ∀ b ∈ digits, isDigit b)
    (hlt : value digits < 2 ^ 31) : atoi digits = value digits := by
  have hread : strtol (digits ++ []) = _ :=
    strtol_digits hne hall (by omega) (fun b hb => absurd hb (by simp))
  rw [List.append_nil] at hread
  rw [atoi, hread, toInt_of_lt hlt]

/-- A minus sign is found in front of the number, and nothing is in front of a digit. -/
theorem sign_printInt (v : ℤ) (rest : List UInt8) :
    sign ((printInt v ++ rest).dropWhile isSpace) =
      (decide (v < 0), decimal v.natAbs ++ rest) := by
  unfold printInt
  split
  · rename_i hneg
    have hminus : ¬ isSpace 45 := by decide
    rw [List.cons_append, List.dropWhile_cons_of_neg hminus, decide_eq_true hneg]
    rfl
  · rename_i hneg
    have hall : ∀ b ∈ decimal v.natAbs, isDigit b := fun b hb => isDigit_of_mem_decimal hb
    rw [sign_digits (decimal_ne_nil _) hall, decide_eq_false hneg]

/-- **A printed number is read back**, up to what follows it. -/
theorem strtol_printInt (h : -2 ^ 63 ≤ v) (h' : v < 2 ^ 63)
    (hrest : ∀ b ∈ rest.head?, isDigit b = false) :
    strtol (printInt v ++ rest) = (v, (printInt v).length) := by
  have hvalue : (if decide (v < 0) then -(value (decimal v.natAbs) : ℤ)
      else value (decimal v.natAbs)) = v := by
    rw [value_decimal]
    split
    · rename_i hneg
      have := of_decide_eq_true hneg
      omega
    · rename_i hneg
      have := of_decide_eq_false (Bool.eq_false_iff.mpr hneg)
      omega
  have hall : ∀ b ∈ decimal v.natAbs, isDigit b := fun b hb => isDigit_of_mem_decimal hb
  obtain ⟨htake, hdrop⟩ := span_digits hall hrest
  simp only [strtol, sign_printInt, htake, hdrop]
  rw [if_neg (decimal_ne_nil _), hvalue, clampLong_of_mem h h', List.length_append,
    Nat.add_sub_cancel]

end Printed

end NetworkingLearning.Text
