import NetworkingLearning.Http.Responses

/-!
# The field with the length (`http_client.c:408-426`)

The client does not take a header apart into its fields. It searches what follows the status line
for `Content-Length: ` (`http_client.c:415`), and reads a number behind the first place where that
is found, up to the end of the line (`http_client.c:416`, `http_client.c:421-425`). So a field whose
name or value ends with these symbols is taken for the one that is meant.

* A `Field` is a name without a colon and a value, neither of them with a symbol of the end of a
  line; a header is the fields one after another, each with its `CRLF`, and an empty line
  (`headerPart`).
* `ReadsAs` says that `strtol` reads a text to its end, as this number.

Results:
* `contentLength_skip`: a line without these symbols is passed over.
* `contentLength_line`: the first line with them decides.
* `fieldFound_iff`: so the field is found exactly if there are none in the fields before it, or if
  the first that has them goes on with a number of the same value.
-/

namespace NetworkingLearning.Http

open NetworkingLearning.Machine NetworkingLearning.Text

/-- What the client searches for. -/
def clName : List UInt8 := ascii "Content-Length: "

/-- A field of a header: its name is without a colon, and both are on one line. -/
structure Field where
  name : List UInt8
  value : List UInt8
  colon : 58 ∉ name
  line : 13 ∉ name ++ value ∧ 10 ∉ name ++ value ∧ 0 ∉ name ++ value

/-- The text of a field, but for its end. -/
def Field.text (field : Field) : List UInt8 := field.name ++ ascii ": " ++ field.value

/-- The fields of a header, and the empty line. -/
def headerPart (fields : List Field) : List UInt8 :=
  (fields.map fun field => field.text ++ crlf).flatten ++ crlf

/-- What follows the first `Content-Length: ` of a text. -/
def behind (text : List UInt8) : List UInt8 :=
  text.drop ((find clName text).getD 0 + clName.length)

/-- `strtol` reads a text to its end, and the number is `n` as a `size_t`. -/
def ReadsAs (text rest : List UInt8) (n : ℕ) : Prop :=
  ∃ v, strtol (text ++ rest) = (v, text.length) ∧ toSize v = n

/-! ## Lines -/

section Lines

variable {text rest : List UInt8} {cl i n : ℕ}

/-- What is in front of the name does not matter. -/
theorem contentLength_congr {str str' : List UInt8} {k : ℕ}
    (hfind : find clName str = (find clName str').map (· + k))
    (hdrop : ∀ i, str.drop (i + k) = str'.drop i) : contentLength str = contentLength str' := by
  unfold clName at hfind
  unfold contentLength
  rw [hfind]
  cases find (ascii "Content-Length: ") str' with
  | none => rfl
  | some i => simp only [Option.map_some, hdrop]

/-- **A line without the name** is passed over. -/
theorem contentLength_skip (h : ¬ clName <:+: text) (rest : List UInt8) :
    contentLength (text ++ 13 :: 10 :: rest) = contentLength rest := by
  refine contentLength_congr (k := text.length + 2) ?_ fun i => ?_
  · have hlf : find clName (10 :: rest) = (find clName rest).map (· + 1) :=
      find_append_cons (by decide) (by decide) (by decide : ¬ clName <:+: [])
    rw [find_append_cons (by decide) (by decide) h, hlf, Option.map_map]
    congr 1
    funext k
    simp only [Function.comp_apply]
    omega
  · rw [Nat.add_comm, Nat.add_assoc, List.drop_length_add_append, Nat.add_comm 2]
    rfl

/-- What is read where the name and the end of its line are found. -/
theorem contentLength_of_find {str : List UInt8} {k : ℕ} (hname : find clName str = some i)
    (hend : find crlf (str.drop i) = some k) :
    contentLength str = .ok cl ↔
      clName.length + (strtol ((str.drop i).drop clName.length)).2 = k ∧
        toSize (strtol ((str.drop i).drop clName.length)).1 = cl := by
  unfold clName at hname ⊢
  simp only [contentLength, hname, hend]
  split
  · rename_i hread
    refine iff_of_false ?_ fun h => hread h.1
    rintro ⟨⟩
  · rename_i hread
    rw [Except.ok.injEq, and_iff_right (not_not.mp hread)]

/-- **The line with the name** is read to its end. -/
theorem contentLength_line (hfind : find clName text = some i) (hlf : 10 ∉ text)
    (rest : List UInt8) :
    contentLength (text ++ 13 :: 10 :: rest) = .ok cl ↔
      ReadsAs (behind text) (13 :: 10 :: rest) cl := by
  have hle := find_le hfind
  have hbehind : behind text = text.drop (i + clName.length) := by rw [behind, hfind]; rfl
  have hdrop : (text ++ 13 :: 10 :: rest).drop i = text.drop i ++ 13 :: 10 :: rest :=
    List.drop_append_of_le_length (by omega)
  have hend : find crlf (text.drop i ++ 13 :: 10 :: rest) = some (text.drop i).length := by
    refine (find_append_iff (by decide)).mpr fun hin => ?_
    rcases List.mem_append.mp (hin.subset (by decide : 10 ∈ crlf)) with h | h
    · exact hlf (List.mem_of_mem_drop h)
    · exact absurd h (by decide)
  have hstart : (text.drop i ++ 13 :: 10 :: rest).drop clName.length =
      behind text ++ 13 :: 10 :: rest := by
    rw [List.drop_append_of_le_length (by rw [List.length_drop]; omega), List.drop_drop, hbehind]
  have hlen : clName.length + (behind text).length = (text.drop i).length := by
    rw [hbehind, List.length_drop, List.length_drop]
    omega
  have hname := find_append hfind (13 :: 10 :: rest)
  rw [contentLength_of_find hname (by rw [hdrop, hend]), hdrop, hstart, ReadsAs, ← hlen,
    Nat.add_left_cancel_iff]
  constructor
  · rintro ⟨hread, hsize⟩
    exact ⟨_, Prod.ext rfl hread, hsize⟩
  · rintro ⟨v, hread, hsize⟩
    rw [hread]
    exact ⟨rfl, hsize⟩

end Lines

/-! ## Fields -/

section Fields

variable {before after pre fields : List Field} {field f : Field} {n : ℕ}

@[simp] theorem headerPart_cons (field : Field) (fields : List Field) :
    headerPart (field :: fields) = field.text ++ 13 :: 10 :: headerPart fields := by
  simp only [headerPart, List.map_cons, List.flatten_cons, crlf_eq, List.append_assoc,
    List.cons_append, List.nil_append]

theorem lf_notMem_text (field : Field) : 10 ∉ field.text := by
  have hcolon : 10 ∉ ascii ": " := by decide
  have hline := field.line.2.1
  rw [List.mem_append, not_or] at hline
  simp only [Field.text, List.mem_append, not_or]
  exact ⟨⟨hline.1, hcolon⟩, hline.2⟩

/-- Fields without the name are passed over. -/
theorem contentLength_fields (h : ∀ f ∈ pre, ¬ clName <:+: f.text) (fields : List Field) :
    contentLength (headerPart (pre ++ fields)) = contentLength (headerPart fields) := by
  induction pre with
  | nil => rfl
  | cons f pre ih =>
    rw [List.cons_append, headerPart_cons, contentLength_skip (h f List.mem_cons_self)]
    exact ih fun g hg => h g (List.mem_cons_of_mem _ hg)

/-- **The first field with the name** is the one that is read. -/
theorem contentLength_first (hpre : ∀ f ∈ pre, ¬ clName <:+: f.text) (hf : clName <:+: f.text)
    (fields : List Field) :
    contentLength (headerPart (pre ++ f :: fields)) = .ok n ↔
      ReadsAs (behind f.text) (13 :: 10 :: headerPart fields) n := by
  rw [contentLength_fields hpre, headerPart_cons]
  cases hfind : find clName f.text with
  | none => exact absurd hf (find_eq_none_iff.mp hfind)
  | some i => exact contentLength_line hfind (lf_notMem_text f) _

/-- The field itself is read as its number. -/
theorem readsAs_field (hname : field.name = ascii "Content-Length") (hne : field.value ≠ [])
    (hdigits : ∀ b ∈ field.value, isDigit b) (hn : value field.value < 2 ^ 63)
    (rest : List UInt8) :
    clName <:+: field.text ∧
      ReadsAs (behind field.text) (13 :: 10 :: rest) (value field.value) := by
  have htext : field.text = clName ++ field.value := by
    rw [Field.text, hname]
    exact congrArg (· ++ field.value) (by decide)
  have hbehind : behind field.text = field.value := by
    rw [htext, behind, find_at_start (List.prefix_append _ _)]
    exact List.drop_left' (Nat.zero_add _).symm
  have hstop : ∀ b ∈ (13 :: 10 :: rest).head?, isDigit b = false := by
    intro b hb
    rw [← Option.some.inj hb]
    decide
  refine ⟨htext ▸ (List.prefix_append _ _).isInfix, value field.value, ?_, ?_⟩
  · rw [hbehind]
    exact strtol_digits hne hdigits hn hstop
  · unfold toSize
    omega

/-- The first of the fields with the name. -/
theorem exists_first (h : ¬ ∀ f ∈ before, ¬ clName <:+: f.text) : ∃ pre f post,
    before = pre ++ f :: post ∧ (∀ g ∈ pre, ¬ clName <:+: g.text) ∧ clName <:+: f.text := by
  induction before with
  | nil => exact absurd (fun f hf => absurd hf List.not_mem_nil) h
  | cons f before ih =>
    by_cases hf : clName <:+: f.text
    · exact ⟨[], f, before, rfl, fun g hg => absurd hg List.not_mem_nil, hf⟩
    · rw [List.forall_mem_cons, not_and] at h
      obtain ⟨pre, g, post, rfl, hpre, hg⟩ := ih (h hf)
      exact ⟨f :: pre, g, post, rfl, List.forall_mem_cons.mpr ⟨hf, hpre⟩, hg⟩

/-- What the parse of a whole header comes to. -/
theorem parseResponseHeader_iff {version status reason header : List UInt8} (hv : 32 ∉ version)
    (hs : 32 ∉ status) (hr : 13 ∉ reason) (hh : header ≠ []) :
    (∃ rep, parseResponseHeader (version ++ 32 :: (status ++ 32 :: (reason ++ 13 :: 10 ::
        header))) = .ok rep ∧ rep.cl = n) ↔ contentLength header = .ok n := by
  rw [parseResponseHeader_statusLine hv hs hr hh]
  cases contentLength header with
  | error e => exact iff_of_false (fun ⟨rep, h, _⟩ => nomatch h) fun h => nomatch h
  | ok cl =>
    constructor
    · rintro ⟨rep, hrep, rfl⟩
      rw [← Except.ok.inj hrep]
    · intro h
      obtain rfl := Except.ok.inj h
      exact ⟨_, rfl, rfl⟩

/-- **The field is found** exactly if no field before it has `Content-Length: ` in its text, or if
the first that has it goes on with a number of the same value. -/
theorem fieldFound_iff {version status reason : List UInt8} (hv : 32 ∉ version) (hs : 32 ∉ status)
    (hr : 13 ∉ reason) (hname : field.name = ascii "Content-Length") (hne : field.value ≠ [])
    (hdigits : ∀ b ∈ field.value, isDigit b) (hvalue : value field.value = n) (hn : n < 2 ^ 63) :
    (∃ rep, parseResponseHeader (version ++ 32 :: (status ++ 32 :: (reason ++ 13 :: 10 ::
        headerPart (before ++ field :: after)))) = .ok rep ∧ rep.cl = n) ↔
      (∀ f ∈ before, ¬ clName <:+: f.text) ∨ ∃ pre f post, before = pre ++ f :: post ∧
        (∀ g ∈ pre, ¬ clName <:+: g.text) ∧ clName <:+: f.text ∧
          ReadsAs (behind f.text) (13 :: 10 :: headerPart (post ++ field :: after)) n := by
  have hh : headerPart (before ++ field :: after) ≠ [] :=
    List.append_ne_nil_of_right_ne_nil _ (by decide)
  rw [parseResponseHeader_iff hv hs hr hh]
  constructor
  · intro hok
    by_cases hnone : ∀ f ∈ before, ¬ clName <:+: f.text
    · exact Or.inl hnone
    · obtain ⟨pre, f, post, rfl, hpre, hf⟩ := exists_first hnone
      rw [List.append_assoc, List.cons_append, contentLength_first hpre hf] at hok
      exact Or.inr ⟨pre, f, post, rfl, hpre, hf, hok⟩
  · rintro (hnone | ⟨pre, f, post, rfl, hpre, hf, hreads⟩)
    · subst hvalue
      obtain ⟨htext, hreads⟩ := readsAs_field hname hne hdigits hn (headerPart after)
      exact (contentLength_first hnone htext after).mpr hreads
    · rw [List.append_assoc, List.cons_append, contentLength_first hpre hf]
      exact hreads

end Fields

/-- `Content-Length: 7`. -/
def sevenField : Field := ⟨ascii "Content-Length", ascii "7", by decide, by decide⟩

/-- `Server: a`. -/
def serverField : Field := ⟨ascii "Server", ascii "a", by decide, by decide⟩

/-- `X-Content-Length: 5`. -/
def otherField : Field := ⟨ascii "X-Content-Length", ascii "5", by decide, by decide⟩

theorem isDigit_sevenField : ∀ b ∈ sevenField.value, isDigit b := List.all_eq_true.mp (by decide)

theorem fieldFound_iff_server :
    ∃ rep, parseResponseHeader (ascii "HTTP/1.1" ++ 32 :: (ascii "200" ++ 32 :: (ascii "OK" ++
      13 :: 10 :: headerPart ([serverField] ++ sevenField :: [])))) = .ok rep ∧ rep.cl = 7 := by
  refine (fieldFound_iff (by decide) (by decide) (by decide) rfl (by decide) isDigit_sevenField
    (by decide) (by decide)).mpr (Or.inl fun f hf => ?_)
  obtain rfl := List.mem_singleton.mp hf
  decide

/-- The number of a field whose name has that of the other at its end. -/
theorem other_field_read : ¬ ∀ (version status reason : List UInt8) (before after : List Field)
    (field : Field) (n : ℕ), 32 ∉ version → 32 ∉ status → status.length = 3 → 13 ∉ reason →
    reason ≠ [] → field.name = ascii "Content-Length" →
    (∀ f ∈ before ++ after, f.name ≠ ascii "Content-Length") → field.value ≠ [] →
    (∀ b ∈ field.value, isDigit b) → value field.value = n → n < 2 ^ 63 →
    ∃ rep, parseResponseHeader (version ++ 32 :: (status ++ 32 :: (reason ++ 13 :: 10 ::
      headerPart (before ++ field :: after)))) = .ok rep ∧ rep.cl = n := by
  intro h
  obtain ⟨rep, hrep, hcl⟩ := h (ascii "HTTP/1.1") (ascii "200") (ascii "OK") [otherField] []
    sevenField 7 (by decide) (by decide) (by decide) (by decide) (by decide) rfl (by decide)
    (by decide) isDigit_sevenField (by decide) (by decide)
  have hfive : parseResponseHeader (ascii "HTTP/1.1" ++ 32 :: (ascii "200" ++ 32 :: (ascii "OK" ++
      13 :: 10 :: headerPart ([otherField] ++ sevenField :: [])))) =
      .ok ⟨ascii "HTTP/1.1 ", ascii "200 ", ascii "OK\r", 5⟩ := by decide
  obtain rfl := Except.ok.inj (hfive.symm.trans hrep)
  exact absurd hcl (by decide)

end NetworkingLearning.Http
