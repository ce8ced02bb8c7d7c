import NetworkingLearning.Csma.Simulation
import NetworkingLearning.Text.Fields

/-!
# The input file (`csma.py:55-62`, `csma.py:180-183`)

Model of `read_config` (`csma.py:180-183`) and of the first lines of `CSMA.__init__`
(`csma.py:57-62`), which take their values out of the dict.

* `readConfig` goes over the lines of a text in ASCII. `readLine` is one of them: the first field is
  the key, and the value is an integer if there is one field more, and a tuple if there are several.
  A line with a key alone, and one that is blank, is an `IndexError`; a field that `int` refuses is
  a `ValueError`.
* `Dict` is the list of the items in the order in which they are stored, of which the last one with
  a key counts. A key that there is not is a `KeyError`.
* `readFields` has the assertion that the value of `R` is a tuple (`csma.py:60`). So a line `R` with
  a single bound cannot be used, though the simulation has nothing against a tuple of one.
* What is written is a list of `ConfigLine`: a key and numbers, with gaps of spaces and tabs around
  and between them. The structure says of itself that its key is a field, and that no number is
  longer than `int` reads.

Results:
* `readLine_text`: what a written line is read as.
* `config_written`: what a written file is read as, whatever the order of its lines.

Out of scope: that a file may not be there, texts that are not ASCII (see `Fields`), and what the
simulation does with a value that is no integer (`Config` has integers; `Config.fields` are the
fields that it stands for).
-/

namespace NetworkingLearning.Csma

open NetworkingLearning.Text

/-- The exceptions of `read_config` and of `CSMA`. -/
inductive ConfigError
  | indexError
  | valueError
  | keyError
  | assertionError
  deriving DecidableEq

/-- A value of the dict. -/
inductive Value
  | int (v : ℤ)
  | tuple (vs : List ℤ)
  deriving DecidableEq

/-- The items of a dict. -/
abbrev Dict := List (List UInt8 × Value)

/-- `int`. -/
def toInt (field : List UInt8) : Except ConfigError ℤ :=
  match intOf field with
  | some v => .ok v
  | none => .error .valueError

/-- An item of `read_config`. -/
def readLine (line : List UInt8) : Except ConfigError (List UInt8 × Value) :=
  match fields (strip line) with
  | [] => .error .indexError
  | [_] => .error .indexError
  | [key, field] => do
    let v ← toInt field
    return (key, .int v)
  | key :: args => do
    let vs ← args.mapM toInt
    return (key, .tuple vs)

/-- `read_config`. -/
def readConfig (text : AsciiText) : Except ConfigError Dict :=
  (textLines text.bytes).mapM readLine

/-- `config[key]`. -/
def Dict.get (dict : Dict) (key : List UInt8) : Except ConfigError Value :=
  match dict.reverse.lookup key with
  | some v => .ok v
  | none => .error .keyError

/-- What `CSMA` stores of its `config`. -/
structure Fields where
  numNodes : Value
  packetLen : Value
  rList : List ℤ
  collCeil : Value
  tolTime : Value
  deriving DecidableEq

/-- `CSMA.__init__`, before the nodes are made. -/
def readFields (config : Dict) : Except ConfigError Fields := do
  let numNodes ← config.get (ascii "N")
  let packetLen ← config.get (ascii "L")
  let rList ← config.get (ascii "R")
  match rList with
  | .int _ => .error .assertionError
  | .tuple rList => do
    let collCeil ← config.get (ascii "M")
    let tolTime ← config.get (ascii "T")
    return ⟨numNodes, packetLen, rList, collCeil, tolTime⟩

/-- The fields of a configuration in which all but the bounds are integers. -/
def Config.fields (config : Config) : Fields :=
  ⟨.int config.N, .int config.L, config.R, .int config.M, .int config.T⟩

/-! ## Files that are written -/

/-- A blank or a tab. -/
def IsGap (gap : List UInt8) : Prop := ∀ b ∈ gap, b = 32 ∨ b = 9

/-- A line of a file: a key, and each of its values behind a gap, with no more digits than `int`
takes. -/
structure ConfigLine where
  front : List UInt8
  key : List UInt8
  vals : List (List UInt8 × ℤ)
  tail : List UInt8
  front_gap : IsGap front
  key_ne : key ≠ []
  key_word : ∀ b ∈ key, isBlank b = false
  vals_gap : ∀ v ∈ vals, IsGap v.1 ∧ v.1 ≠ []
  vals_short : ∀ v ∈ vals, (decimal v.2.natAbs).length ≤ maxStrDigits
  tail_gap : IsGap tail

/-- Its text. -/
def ConfigLine.text (l : ConfigLine) : List UInt8 :=
  l.front ++ (l.key ++ (l.vals.flatMap fun v => v.1 ++ printInt v.2) ++ l.tail)

/-- Its values. -/
def ConfigLine.values (l : ConfigLine) : List ℤ := l.vals.map Prod.snd

/-- What a line with one value or more stands for. -/
def valueOf : List ℤ → Value
  | [v] => .int v
  | vs => .tuple vs

/-- The values of the last line with a key. -/
def lastValues (lines : List ConfigLine) (key : List UInt8) : Option (List ℤ) :=
  ((lines.map fun l => (l.key, l.values)).reverse.lookup key)

section Lines

variable {l : ConfigLine} {w gap : List UInt8} {vals : List (List UInt8 × ℤ)}

theorem IsGap.blank (h : IsGap gap) : ∀ b ∈ gap, isBlank b := fun b hb => by
  rcases h b hb with rfl | rfl <;> decide

/-- The fields of a word and the values behind it. -/
theorem fields_values (hvals : ∀ v ∈ vals, IsGap v.1 ∧ v.1 ≠ []) (hw : w ≠ [])
    (hword : ∀ b ∈ w, isBlank b = false) :
    fields (w ++ vals.flatMap fun v => v.1 ++ printInt v.2) =
      w :: vals.map fun v => printInt v.2 := by
  induction vals generalizing w with
  | nil =>
    rw [List.flatMap_nil, List.append_nil, fields_word hw hword]
    rfl
  | cons v vals ih =>
    rw [List.forall_mem_cons] at hvals
    obtain ⟨⟨hgap, hne⟩, hvals⟩ := hvals
    obtain ⟨gap, n⟩ := v
    obtain ⟨b, gap, rfl⟩ := List.exists_cons_of_ne_nil hne
    have hblank := hgap.blank
    rw [List.forall_mem_cons] at hblank
    simp only [List.flatMap_cons, List.cons_append]
    rw [fields_append_cons hblank.1, fields_word hw hword, List.append_assoc,
      fields_gap_append hblank.2, ih hvals (printInt_ne_nil n) (printInt_word n)]
    rfl

/-- The fields of a line. -/
@[simp] theorem ConfigLine.fields_text (l : ConfigLine) :
    fields l.text = l.key :: l.values.map printInt := by
  rw [ConfigLine.text, fields_gap_append l.front_gap.blank, fields_append_gap l.tail_gap.blank,
    fields_values l.vals_gap l.key_ne l.key_word, ConfigLine.values, List.map_map]
  rfl

theorem toInt_printInt {v : ℤ} (h : (decimal v.natAbs).length ≤ maxStrDigits) :
    toInt (printInt v) = .ok v := by
  rw [toInt, intOf_printInt h]

theorem mapM_toInt {vs : List ℤ} (h : ∀ v ∈ vs, (decimal v.natAbs).length ≤ maxStrDigits) :
    (vs.map printInt).mapM toInt = .ok vs := by
  induction vs with
  | nil => rfl
  | cons v vs ih =>
    rw [List.forall_mem_cons] at h
    rw [List.map_cons, List.mapM_cons, toInt_printInt h.1, ih h.2]
    rfl

/-- The digits of its values. -/
theorem ConfigLine.values_short (l : ConfigLine) :
    ∀ v ∈ l.values, (decimal v.natAbs).length ≤ maxStrDigits := fun v hv => by
  obtain ⟨w, hw, rfl⟩ := List.mem_map.mp hv
  exact l.vals_short w hw

/-- **What a written line is read as.** -/
theorem readLine_text (l : ConfigLine) : readLine l.text =
    if l.values = [] then .error .indexError else .ok (l.key, valueOf l.values) := by
  rw [readLine, fields_strip, l.fields_text]
  match l.values, l.values_short with
  | [], _ => rfl
  | [v], hshort =>
    simp only [List.map_cons, List.map_nil, toInt_printInt (hshort v List.mem_cons_self)]
    rfl
  | v :: v' :: vs, hshort =>
    have hall := mapM_toInt hshort
    simp only [List.map_cons] at hall ⊢
    rw [hall]
    rfl

theorem ConfigLine.oneLine (l : ConfigLine) : OneLine l.text := by
  have hword : ∀ b : UInt8, isBlank b = false → b ≠ 10 ∧ b ≠ 13 := fun b hb =>
    ⟨fun h => absurd hb (by rw [h]; decide), fun h => absurd hb (by rw [h]; decide)⟩
  have hgap : ∀ {gap : List UInt8}, IsGap gap → OneLine gap := fun h b hb => by
    rcases h b hb with rfl | rfl <;> exact ⟨by decide, by decide⟩
  intro b hb
  rw [ConfigLine.text, List.mem_append, List.mem_append, List.mem_append, List.mem_flatMap] at hb
  rcases hb with hb | (hb | ⟨v, hv, hb⟩) | hb
  · exact hgap l.front_gap b hb
  · exact hword b (l.key_word b hb)
  · rcases List.mem_append.mp hb with hb | hb
    · exact hgap (l.vals_gap v hv).1 b hb
    · exact hword b (printInt_word v.2 b hb)
  · exact hgap l.tail_gap b hb

theorem ConfigLine.text_ne_nil (l : ConfigLine) : l.text ≠ [] := by
  simp [ConfigLine.text, l.key_ne]

end Lines

section Files

variable {text newline : List UInt8} {lines : List ConfigLine}

/-- A file with a newline behind each line, but for the last one perhaps. -/
def IsFile (newline : List UInt8) (lines : List ConfigLine) (text : List UInt8) : Prop :=
  text = lines.flatMap (fun l => l.text ++ newline) ∨
    text ++ newline = lines.flatMap fun l => l.text ++ newline

theorem textLines_file (hnl : newline = [10] ∨ newline = [13, 10])
    (h : IsFile newline lines text) : textLines text = lines.map ConfigLine.text := by
  have hall : ∀ ls : List ConfigLine, ∀ t ∈ ls.map ConfigLine.text, OneLine t := fun ls t ht => by
    obtain ⟨l, -, rfl⟩ := List.mem_map.mp ht
    exact l.oneLine
  have hflat : ∀ ls : List ConfigLine, ls.flatMap (fun l => l.text ++ newline) =
      (ls.map ConfigLine.text).flatMap (· ++ newline) := fun ls =>
    (List.flatMap_map ConfigLine.text (· ++ newline) ls).symm
  rcases h with rfl | h
  · have hnil : OneLine [] := fun b hb => nomatch hb
    have hread := textLines_written hnl (hall lines) hnil
    rwa [List.append_nil, if_pos rfl, List.append_nil, ← hflat] at hread
  · rcases List.eq_nil_or_concat lines with rfl | ⟨ls, l, rfl⟩
    · have hnil := (List.append_eq_nil_iff.mp h).2
      rcases hnl with rfl | rfl <;> cases hnil
    · rw [List.concat_eq_append] at h ⊢
      rw [List.flatMap_append, List.flatMap_singleton, ← List.append_assoc] at h
      rw [List.append_cancel_right h, hflat, textLines_written hnl (hall ls) l.oneLine,
        if_neg l.text_ne_nil, List.map_append]
      rfl

/-- The items of a file. -/
theorem mapM_readLine (lines : List ConfigLine) :
    (lines.map ConfigLine.text).mapM readLine =
      if ∃ l ∈ lines, l.values = [] then .error .indexError
      else .ok (lines.map fun l => (l.key, valueOf l.values)) := by
  induction lines with
  | nil => rfl
  | cons l lines ih =>
    rw [List.map_cons, List.mapM_cons, readLine_text, ih]
    simp only [List.mem_cons, exists_eq_or_imp]
    by_cases h : l.values = []
    · rw [if_pos h, if_pos (Or.inl h)]
      rfl
    · rw [if_neg h]
      by_cases h' : ∃ l ∈ lines, l.values = []
      · rw [if_pos h', if_pos (Or.inr h')]
        rfl
      · rw [if_neg h', if_neg (not_or.mpr ⟨h, h'⟩)]
        rfl

theorem exists_of_lastValues {key : List UInt8} {vals : List ℤ}
    (h : lastValues lines key = some vals) : ∃ l ∈ lines, l.values = vals := by
  obtain ⟨front, rest, heq, -⟩ := List.lookup_eq_some_iff.mp h
  have hmem : (key, vals) ∈ lines.map fun l => (l.key, l.values) := by
    rw [← List.mem_reverse, heq]
    exact List.mem_append_right _ List.mem_cons_self
  obtain ⟨l, hl, hitem⟩ := List.mem_map.mp hmem
  exact ⟨l, hl, congrArg Prod.snd hitem⟩

/-- A value of the last line with a key. -/
theorem get_lines {key : List UInt8} {vals : List ℤ} (h : lastValues lines key = some vals) :
    Dict.get (lines.map fun l => (l.key, valueOf l.values)) key = .ok (valueOf vals) := by
  have hlookup : ∀ items : List (List UInt8 × List ℤ),
      (items.map fun i => (i.1, valueOf i.2)).lookup key = (items.lookup key).map valueOf := by
    intro items
    induction items with
    | nil => rfl
    | cons i items ih =>
      obtain ⟨k, vs⟩ := i
      rw [List.map_cons, List.lookup_cons, List.lookup_cons, ih]
      cases key == k <;> rfl
  have hmap : (lines.map fun l => (l.key, valueOf l.values)).reverse =
      ((lines.map fun l => (l.key, l.values)).reverse).map fun i => (i.1, valueOf i.2) := by
    rw [← List.map_reverse, ← List.map_reverse, List.map_map]
    rfl
  rw [Dict.get, hmap, hlookup, show List.lookup key _ = some vals from h]
  rfl

end Files

/-- **What a written file is read as**, whatever the order of its lines, other keys, and lines
with a key that there is again below: the configuration that its last lines have, unless a line has
no value at all, or there is a single bound. -/
theorem config_written (config : Config) (newline : List UInt8) (text : AsciiText)
    (lines : List ConfigLine) (hnl : newline = [10] ∨ newline = [13, 10])
    (htext : IsFile newline lines text.bytes)
    (hN : lastValues lines (ascii "N") = some [config.N])
    (hL : lastValues lines (ascii "L") = some [config.L])
    (hR : lastValues lines (ascii "R") = some config.R)
    (hM : lastValues lines (ascii "M") = some [config.M])
    (hT : lastValues lines (ascii "T") = some [config.T]) :
    (readConfig text >>= readFields) =
      if ∃ l ∈ lines, l.values = [] then .error .indexError
      else if config.R.length = 1 then .error .assertionError
      else .ok config.fields := by
  rw [readConfig, textLines_file hnl htext, mapM_readLine]
  split_ifs with hempty hone
  · rfl
  · obtain ⟨r, hr⟩ := List.length_eq_one_iff.mp hone
    rw [hr] at hR
    show readFields _ = _
    rw [readFields, get_lines hN, get_lines hL, get_lines hR]
    rfl
  · obtain ⟨r, r', rs, hr⟩ : ∃ r r' rs, config.R = r :: r' :: rs := by
      match hr : config.R with
      | [] => exact absurd (exists_of_lastValues (hr ▸ hR)) hempty
      | [r] => exact absurd (congrArg List.length hr) hone
      | r :: r' :: rs => exact ⟨r, r', rs, rfl⟩
    show readFields _ = _
    rw [readFields, get_lines hN, get_lines hL, get_lines hR, get_lines hM, get_lines hT,
      Config.fields, hr]
    rfl

/-- A line with single blanks in it, of a key with one letter. -/
def plainLine (key : UInt8) (vals : List ℤ) (tail : List UInt8) (hkey : isBlank key = false)
    (hvals : ∀ v ∈ vals, (decimal v.natAbs).length ≤ maxStrDigits) (htail : IsGap tail) :
    ConfigLine where
  front := []
  key := [key]
  vals := vals.map fun v => ([32], v)
  tail := tail
  front_gap b hb := nomatch hb
  key_ne := List.cons_ne_nil _ _
  key_word := List.forall_mem_singleton.mpr hkey
  vals_gap v hv := by
    obtain ⟨n, -, rfl⟩ := List.mem_map.mp hv
    exact ⟨fun b hb => Or.inl (List.mem_singleton.mp hb), List.cons_ne_nil _ _⟩
  vals_short v hv := by
    obtain ⟨n, hn, rfl⟩ := List.mem_map.mp hv
    exact hvals n hn
  tail_gap := htail

/-- The lines of `default.txt`. The third one ends with a blank. -/
def defaultLines : List ConfigLine :=
  [plainLine 78 [25] [] (by decide) (by decide) (fun b hb => nomatch hb),
    plainLine 76 [20] [] (by decide) (by decide) (fun b hb => nomatch hb),
    plainLine 82 [8, 16, 32, 64, 128, 256, 512] [32] (by decide) (by decide)
      (fun b hb => Or.inl (List.mem_singleton.mp hb)),
    plainLine 77 [6] [] (by decide) (by decide) (fun b hb => nomatch hb),
    plainLine 84 [50000] [] (by decide) (by decide) (fun b hb => nomatch hb)]

/-- `default.txt`. -/
def defaultText : AsciiText where
  bytes := ascii "N 25\nL 20\nR 8 16 32 64 128 256 512 \nM 6\nT 50000\n"
  ascii := forall_ascii_of_all (by decide)

theorem config_written_default : (readConfig defaultText >>= readFields) =
    .ok ⟨.int 25, .int 20, [8, 16, 32, 64, 128, 256, 512], .int 6, .int 50000⟩ := by
  have hfile : IsFile [10] defaultLines defaultText.bytes := Or.inl (by decide)
  rw [config_written ⟨25, 20, [8, 16, 32, 64, 128, 256, 512], 6, 50000⟩ [10] _ defaultLines
    (Or.inl rfl) hfile rfl rfl rfl rfl rfl, if_neg (by decide), if_neg (by decide)]
  rfl

end NetworkingLearning.Csma
