import NetworkingLearning.Text.Strings

/-!
# Texts as Python reads them (`open`, `str.strip`, `str.split`, `int`)

What `open(path)`, an iteration over its lines, `str.strip()`, `str.split()` and `int` make of a
text file. The standard library is modelled by what its documentation says.

* A text is an `AsciiText`. `open` decodes the bytes of a file, and outside of ASCII the white space
  and the digits of `str` are classes of Unicode, and what is not UTF-8 is an exception. The
  functions below are of the bytes of such a text, or of a part of one.
* `textLines`: a text file is opened with universal newlines. A carriage return, and one with a line
  feed behind it, are read as a line feed. The line feed at the end of a line, which an iteration
  over the file keeps, is left out: every line is stripped.
* `strip` and `fields` go by `str.isspace`, which in ASCII has the four separators 28 to 31 besides
  the white space of C.
* `intOf` is `int` of a field, which has no white space in it: a sign, and digits with at most one
  underscore between two of them, of which there are no more than `maxStrDigits`.

Results:
* `fields_append_cons`, `fields_word`: what `split` makes of a text, from its parts.
* `fields_strip`: `strip` does not change the fields.
* `intOf_printInt`: a printed number is read back, up to the limit.
* `textLines_written`: lines that were written are read back.
-/

namespace NetworkingLearning.Text

/-- A text in ASCII. -/
structure AsciiText where
  bytes : List UInt8
  ascii : ∀ b ∈ bytes, b < 128

/-- The test of a given text. -/
theorem forall_ascii_of_all {s : List UInt8} (h : s.all (· < 128)) : ∀ b ∈ s, b < 128 := by
  simpa using h

/-! ## Fields -/

/-- `str.isspace`, in ASCII. -/
def isBlank (b : UInt8) : Bool := isSpace b || (28 ≤ b.toNat && b.toNat ≤ 31)

/-- `strip()`. -/
def strip (s : List UInt8) : List UInt8 := (s.dropWhile isBlank).rdropWhile isBlank

/-- `split()`. -/
def fields (s : List UInt8) : List (List UInt8) := (s.splitOnP isBlank).filter (· ≠ [])

section Fields

variable {s rest w gap : List UInt8} {b : UInt8}

/-- White space parts a text. -/
theorem fields_append_cons (hb : isBlank b) (s rest : List UInt8) :
    fields (s ++ b :: rest) = fields s ++ fields rest := by
  rw [fields, List.splitOnP_append_cons s rest hb, List.filter_append]
  rfl

/-- A word is a field. -/
theorem fields_word (hw : w ≠ []) (hall : ∀ b ∈ w, isBlank b = false) : fields w = [w] := by
  rw [fields, List.splitOnP_eq_singleton hall]
  exact List.filter_cons_of_pos (by simpa using hw)

@[simp] theorem fields_nil : fields [] = [] := by
  rw [fields, List.splitOnP_nil]
  rfl

/-- White space in front. -/
theorem fields_gap_append (hgap : ∀ b ∈ gap, isBlank b) (s : List UInt8) :
    fields (gap ++ s) = fields s := by
  induction gap with
  | nil => rfl
  | cons b gap ih =>
    rw [List.forall_mem_cons] at hgap
    have hcons : b :: gap ++ s = [] ++ b :: (gap ++ s) := rfl
    rw [hcons, fields_append_cons hgap.1, fields_nil, List.nil_append, ih hgap.2]

/-- White space at the end. -/
theorem fields_append_gap (hgap : ∀ b ∈ gap, isBlank b) (s : List UInt8) :
    fields (s ++ gap) = fields s := by
  cases gap with
  | nil => rw [List.append_nil]
  | cons b gap =>
    rw [List.forall_mem_cons] at hgap
    have hrest := fields_gap_append hgap.2 []
    rw [List.append_nil, fields_nil] at hrest
    rw [fields_append_cons hgap.1, hrest, List.append_nil]

/-- **`strip` does not change the fields.** -/
@[simp] theorem fields_strip (s : List UInt8) : fields (strip s) = fields s := by
  have hfront : ∀ b ∈ s.takeWhile isBlank, isBlank b := fun b hb => List.mem_takeWhile_imp hb
  have htail : ∀ b ∈ (s.dropWhile isBlank).rtakeWhile isBlank, isBlank b := fun b hb =>
    List.mem_rtakeWhile_imp hb
  calc fields (strip s)
      = fields (strip s ++ (s.dropWhile isBlank).rtakeWhile isBlank) :=
        (fields_append_gap htail _).symm
    _ = fields (s.dropWhile isBlank) := by rw [strip, List.rdropWhile_append_rtakeWhile]
    _ = fields (s.takeWhile isBlank ++ s.dropWhile isBlank) := (fields_gap_append hfront _).symm
    _ = fields s := by rw [List.takeWhile_append_dropWhile]

end Fields

/-! ## Numbers -/

/-- `sys.int_info.default_max_str_digits`. -/
def maxStrDigits : ℕ := 4300

/-- `int` of a field; `none` is a `ValueError`. -/
def intOf (s : List UInt8) : Option ℤ :=
  let (minus, body) := sign s
  let digits := body.splitOn 95
  if (digits.all fun w => w ≠ [] && w.all isDigit) && digits.flatten.length ≤ maxStrDigits then
    some (if minus then -(value digits.flatten : ℤ) else value digits.flatten)
  else none

section Numbers

variable {v : ℤ}

theorem isBlank_of_isDigit {b : UInt8} (h : isDigit b) : isBlank b = false := by
  unfold isDigit at h
  unfold isBlank isSpace
  simp only [Bool.and_eq_true, decide_eq_true_eq, Bool.or_eq_false_iff,
    Bool.and_eq_false_iff, decide_eq_false_iff_not] at h ⊢
  omega

/-- A printed number is a word. -/
theorem printInt_word (v : ℤ) : ∀ b ∈ printInt v, isBlank b = false := fun b hb => by
  rcases mem_printInt hb with rfl | hb
  · decide
  · exact isBlank_of_isDigit hb

/-- **A printed number** is read back, up to the limit. -/
theorem intOf_printInt (hlen : (decimal v.natAbs).length ≤ maxStrDigits) :
    intOf (printInt v) = some v := by
  have hall : ∀ b ∈ decimal v.natAbs, isDigit b := fun b hb => isDigit_of_mem_decimal hb
  have hdrop : (printInt v).dropWhile isSpace = printInt v := by
    obtain ⟨b, rest, heq⟩ := List.exists_cons_of_ne_nil (printInt_ne_nil v)
    have hb := printInt_word v b (heq ▸ List.mem_cons_self)
    rw [isBlank, Bool.or_eq_false_iff] at hb
    rw [heq, List.dropWhile_cons_of_neg (Bool.eq_false_iff.mp hb.1)]
  have hsign := sign_printInt v []
  rw [List.append_nil, List.append_nil, hdrop] at hsign
  have hsplit : (decimal v.natAbs).splitOn 95 = [decimal v.natAbs] :=
    List.splitOn_eq_singleton fun h => absurd (hall 95 h) (by decide)
  have hdigits : (decimal v.natAbs).all isDigit = true := List.all_eq_true.mpr hall
  have hne : decimal v.natAbs ≠ [] := decimal_ne_nil _
  simp only [intOf, hsign, hsplit, List.all_cons, List.all_nil, hdigits, hne, hlen, ne_eq,
    not_false_eq_true, decide_true, Bool.and_self, if_true, List.flatten_cons, List.flatten_nil,
    List.append_nil, value_decimal, Option.some.injEq, decide_eq_true_eq]
  split_ifs <;> omega

end Numbers

/-! ## Lines -/

/-- Universal newlines; the flag says that a carriage return has just been read. -/
def newlines : Bool → List UInt8 → List UInt8
  | _, [] => []
  | cr, b :: rest =>
    if b = 13 then 10 :: newlines true rest
    else if b = 10 ∧ cr then newlines false rest
    else b :: newlines false rest

/-- The lines behind a part of one. -/
def linesLoop : List UInt8 → List UInt8 → List (List UInt8)
  | line, [] => if line = [] then [] else [line]
  | line, b :: rest => if b = 10 then line :: linesLoop [] rest else linesLoop (line ++ [b]) rest

/-- The lines of a text file. -/
def textLines (text : List UInt8) : List (List UInt8) := linesLoop [] (newlines false text)

section Lines

variable {line rest newline last : List UInt8} {lines : List (List UInt8)}

/-- Neither a line feed nor a carriage return. -/
def OneLine (line : List UInt8) : Prop := ∀ b ∈ line, b ≠ 10 ∧ b ≠ 13

theorem newlines_append (hline : OneLine line) (rest : List UInt8) :
    newlines false (line ++ rest) = line ++ newlines false rest := by
  induction line with
  | nil => rfl
  | cons b line ih =>
    rw [OneLine, List.forall_mem_cons] at hline
    rw [List.cons_append, newlines, if_neg hline.1.2, if_neg (fun h => hline.1.1 h.1),
      ih hline.2, List.cons_append]

theorem linesLoop_append (hline : OneLine line) (front rest : List UInt8) :
    linesLoop front (line ++ rest) = linesLoop (front ++ line) rest := by
  induction line generalizing front with
  | nil => rw [List.append_nil]; rfl
  | cons b line ih =>
    rw [OneLine, List.forall_mem_cons] at hline
    rw [List.cons_append, linesLoop, if_neg hline.1.1, ih hline.2, List.append_assoc]
    rfl

/-- The first line. -/
theorem textLines_cons (hnl : newline = [10] ∨ newline = [13, 10]) (hline : OneLine line)
    (rest : List UInt8) : textLines (line ++ newline ++ rest) = line :: textLines rest := by
  have hread : newlines false (newline ++ rest) = 10 :: newlines false rest := by
    rcases hnl with rfl | rfl
    · rfl
    · rfl
  rw [textLines, List.append_assoc, newlines_append hline, hread,
    linesLoop_append hline, List.nil_append, linesLoop, if_pos rfl]
  rfl

/-- **Lines that were written are read back**, with a newline behind the last one or without. -/
theorem textLines_written (hnl : newline = [10] ∨ newline = [13, 10])
    (hlines : ∀ l ∈ lines, OneLine l) (hlast : OneLine last) :
    textLines (lines.flatMap (· ++ newline) ++ last) =
      lines ++ if last = [] then [] else [last] := by
  induction lines with
  | nil =>
    have hread := newlines_append hlast []
    have hloop := linesLoop_append hlast [] []
    rw [List.append_nil] at hread hloop
    rw [List.flatMap_nil, List.nil_append, List.nil_append, textLines, hread, newlines,
      List.append_nil, hloop, linesLoop, List.nil_append]
  | cons l lines ih =>
    rw [List.forall_mem_cons] at hlines
    rw [List.flatMap_cons, List.append_assoc, textLines_cons hnl hlines.1, ih hlines.2,
      List.cons_append]

end Lines

end NetworkingLearning.Text
