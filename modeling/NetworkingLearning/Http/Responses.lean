import NetworkingLearning.Http.Headers

/-!
# Responses (`http_server.c:44-80`, `http_server.c:201-232`, `http_client.c:361-452`)

`generateResponse` is the string of `generate_response`, `newRep` what `respond` fills in for it,
and `parseResponseHeader` what the client reads from it, check by check and with the texts of its
errors. How the string is built in an array is in `Building`.

* A string has no zero in it; a pointer into one is what the string has from there on, and `strchr`
  and `strstr` are `find`.
* The words of the status line are copied with `strndup` (`http_client.c:376-377`). The length is
  `str_size + 1`, a sum of `int`s that becomes a `size_t` (`copied`): it takes the symbol behind the
  word too, and where the word is `2 ^ 31 - 1` bytes long or longer it is another number altogether.
* `content_length` is a `size_t` at the server, printed as an `int` (`http_server.c:214`), and read
  with `strtol` into a `size_t` again (`http_client.c:421`).
* No string is `NULL` here, and `end_ptr + 2` is in the string: the client parses what `recv_header`
  has returned, and that ends with a line feed.

Results:
* `parseResponseHeader_statusLine`: the three words are copied, by lengths that are `int`s.
* `statusLine_never`: each of them with the symbol behind it, or with more, or less.
* `contentLength_printInt`: a printed number is read back.
* `sizes_arrive_iff`: a size goes through the `int` that the server prints, and comes back exactly
  if it is less than `2 ^ 31`.
-/

namespace NetworkingLearning.Http

open NetworkingLearning.Machine NetworkingLearning.Text

/-- `http_status`. -/
structure HttpStatus where
  statusCode : List UInt8
  reason : List UInt8

def httpError : HttpStatus := ⟨ascii "400", ascii "Bad Request"⟩

def httpOk : HttpStatus := ⟨ascii "200", ascii "OK"⟩

def httpNotFound : HttpStatus := ⟨ascii "404", ascii "NOT FOUND"⟩

/-- `http_response`. -/
structure HttpResponse where
  version : List UInt8
  status : List UInt8
  reason : List UInt8
  cl : ℕ
deriving DecidableEq

/-! ## The server -/

/-- The response of `respond`. -/
def newRep (status : HttpStatus) (contentLength : ℕ) : HttpResponse where
  version := ascii "HTTP/1.1"
  status := status.statusCode
  reason := status.reason
  cl := if contentLength ≠ toSize (-1) then contentLength else 0

/-- `generate_response`: the string. -/
def generateResponse (rep : HttpResponse) : List UInt8 :=
  let line := rep.version ++ ascii " " ++ rep.status ++ ascii " " ++ rep.reason
  if ascii "200" <+: rep.status then
    let clLoc := rep.version.length + 1 + rep.status.length + 1 + rep.reason.length + 2
    let response := line ++ crlf
    response.take clLoc ++ (ascii "Content-Length: " ++ printInt (toInt rep.cl)) ++ crlfcrlf
  else line ++ crlfcrlf

/-! ## The client -/

/-- The `strndup` of `str_size + 1` symbols. `str_size` is an `int`. -/
def copied (strSize : ℕ) (str : List UInt8) : List UInt8 :=
  str.take (toSize (addInt (toInt strSize) 1))

/-- `strchr`, and the `strndup` of the word up to `end_ptr`; the string from `end_ptr` on. -/
def word (c : UInt8) (error : String) (str : List UInt8) :
    Except String (List UInt8 × List UInt8) :=
  match find [c] str with
  | none => .error error
  | some strSize => .ok (copied strSize str, str.drop strSize)

/-- The check that a string goes on. -/
def goesOn (error : String) (str : List UInt8) : Except String (List UInt8) :=
  if str = [] then .error error else .ok str

/-- The header part of `parse_response_header`. -/
def contentLength (str : List UInt8) : Except String ℕ :=
  match find (ascii "Content-Length: ") str with
  | none => .error "[Error] No Content-Length.\n"
  | some clPtr =>
    let cl := str.drop clPtr
    match find crlf cl with
    | none => .error "[Error] No Content-Length.\n"
    | some endPtr =>
      let start := (ascii "Content-Length: ").length
      let (number, read) := strtol (cl.drop start)
      if start + read ≠ endPtr then .error "[Error] Error parsing content length.\n"
      else .ok (toSize number)

/-- `parse_response_header`. -/
def parseResponseHeader (response : List UInt8) : Except String HttpResponse := do
  let (version, str) ← word 32 "[Error] Wrong Response Message (HTTP-Version end).\n" response
  let str ← goesOn "[Error] Wrong Response Message (Status-Code start).\n" (str.drop 1)
  let (status, str) ← word 32 "[Error] Wrong Response Message (Status-Code end).\n" str
  let str ← goesOn "[Error] Wrong Response Message (Reason-Phrase start).\n" (str.drop 1)
  let (reason, str) ← word 13 "[Error] Wrong Response Message (Reason-Phrase end).\n" str
  let str ← goesOn "[Error] Wrong Response Message: no header part.\n" (str.drop 2)
  let cl ← contentLength str
  return ⟨version, status, reason, cl⟩

@[simp] theorem ascii_space : ascii " " = [32] := by decide

theorem crlf_eq : crlf = [13, 10] := by decide

/-! ## The status line -/

section Words

variable {c : UInt8} {error : String} {w str : List UInt8}

theorem copied_of_lt (hw : w.length + 1 < 2 ^ 31) : copied w.length (w ++ c :: str) = w ++ [c] := by
  have hsize : toSize (addInt (toInt w.length) 1) = w.length + 1 := by
    rw [addInt_toInt, ← Nat.cast_succ, toInt_of_lt hw]
    unfold toSize
    omega
  rw [copied, hsize, List.take_length_add_append]
  rfl

/-- **A word is never copied as it is**, of whatever length. -/
theorem copied_ne (c : UInt8) (w str : List UInt8) : copied w.length (w ++ c :: str) ≠ w := by
  intro h
  have hsize : toSize (addInt (toInt w.length) 1) ≠ w.length := by
    rw [addInt_toInt]
    unfold toSize toInt
    rw [Int.bmod_def]
    split <;> omega
  have hlen := congrArg List.length h
  rw [copied, List.length_take, List.length_append, List.length_cons] at hlen
  omega

theorem word_append (hw : c ∉ w) (str : List UInt8) :
    word c error (w ++ c :: str) = .ok (copied w.length (w ++ c :: str), c :: str) := by
  have hfind : find [c] (w ++ ([c] ++ str)) = some w.length := by
    refine (find_append_iff (by simp)).mpr ?_
    simpa [List.singleton_infix_iff] using hw
  rw [List.singleton_append] at hfind
  simp only [word, hfind, List.drop_left]

theorem goesOn_of_ne (h : str ≠ []) : goesOn error str = .ok str := if_neg h

end Words

/-- **The status line.** Each word is copied by its length. -/
theorem parseResponseHeader_statusLine {version status reason header : List UInt8}
    (hv : 32 ∉ version) (hs : 32 ∉ status) (hr : 13 ∉ reason) (hh : header ≠ []) :
    parseResponseHeader (version ++ 32 :: (status ++ 32 :: (reason ++ 13 :: 10 :: header))) =
      (contentLength header).map fun cl =>
        ⟨copied version.length (version ++ 32 :: (status ++ 32 :: (reason ++ 13 :: 10 :: header))),
          copied status.length (status ++ 32 :: (reason ++ 13 :: 10 :: header)),
          copied reason.length (reason ++ 13 :: 10 :: header), cl⟩ := by
  have hstatus : status ++ 32 :: (reason ++ 13 :: 10 :: header) ≠ [] := by simp
  have hreason : reason ++ 13 :: 10 :: header ≠ [] := by simp
  simp only [parseResponseHeader, word_append hv, word_append hs, word_append hr, bind, Except.bind,
    List.drop_succ_cons, List.drop_zero, goesOn_of_ne hstatus, goesOn_of_ne hreason,
    goesOn_of_ne hh]
  cases contentLength header <;> rfl

/-- **The status line does not come back**: the parse succeeds, and none of the three words is the
one that was rendered. -/
theorem statusLine_never {version status reason header : List UInt8} {cl : ℕ} (hv : 32 ∉ version)
    (hs : 32 ∉ status) (hr : 13 ∉ reason) (hcl : contentLength header = .ok cl) :
    ∃ rep, parseResponseHeader
        (version ++ 32 :: (status ++ 32 :: (reason ++ 13 :: 10 :: header))) = .ok rep ∧
      rep.cl = cl ∧ rep.version ≠ version ∧ rep.status ≠ status ∧ rep.reason ≠ reason := by
  have hh : header ≠ [] := by
    rintro rfl
    have hnil : contentLength [] = .error "[Error] No Content-Length.\n" := by decide
    nomatch hnil.symm.trans hcl
  rw [parseResponseHeader_statusLine hv hs hr hh, hcl]
  refine ⟨_, rfl, rfl, ?_⟩
  dsimp only
  exact ⟨copied_ne _ _ _, copied_ne _ _ _, copied_ne _ _ _⟩

/-- A length for the examples. -/
def twoBytesField : List UInt8 := ascii "Content-Length: 2\r\n\r\n"

theorem statusLine_never_ok :
    ∃ rep, parseResponseHeader (ascii "HTTP/1.1" ++ 32 :: (ascii "200" ++ 32 :: (ascii "OK" ++
      13 :: 10 :: twoBytesField))) = .ok rep ∧ rep.cl = 2 ∧ rep.version ≠ ascii "HTTP/1.1" := by
  have hcl : contentLength twoBytesField = .ok 2 := by decide
  obtain ⟨rep, hrep, hlen, hversion, -⟩ := statusLine_never (by decide : 32 ∉ ascii "HTTP/1.1")
    (by decide : 32 ∉ ascii "200") (by decide : 13 ∉ ascii "OK") hcl
  exact ⟨rep, hrep, hlen, hversion⟩

/-- The version comes back with a space, the status too, and the reason with a carriage return. -/
theorem words_grow : ¬ ∀ (version status reason header : List UInt8) (cl : ℕ), version ≠ [] →
    status ≠ [] → reason ≠ [] → 32 ∉ version → 32 ∉ status → 13 ∉ reason →
    0 ∉ version ++ status ++ reason → contentLength header = .ok cl →
    parseResponseHeader (version ++ 32 :: (status ++ 32 :: (reason ++ 13 :: 10 :: header))) =
      .ok ⟨version, status, reason, cl⟩ := by
  intro h
  have hrep := h (ascii "HTTP/1.1") (ascii "200") (ascii "OK") twoBytesField 2 (by decide)
    (by decide) (by decide) (by decide) (by decide) (by decide) (by decide) (by decide)
  exact absurd hrep (by decide)

/-- The response with a size: the field starts behind the line. -/
theorem generateResponse_withLength {rep : HttpResponse} (h : ascii "200" <+: rep.status) :
    generateResponse rep = rep.version ++ 32 :: (rep.status ++ 32 :: (rep.reason ++ 13 :: 10 ::
      (ascii "Content-Length: " ++ printInt (toInt rep.cl) ++ crlfcrlf))) := by
  simp only [generateResponse, if_pos h, ascii_space, crlf_eq]
  rw [List.take_of_length_le]
  · simp only [List.append_assoc, List.cons_append, List.nil_append]
  · simp only [List.length_append, List.length_cons, List.length_nil]
    omega

example : parseResponseHeader (generateResponse (newRep httpNotFound (toSize (-1)))) =
    .error "[Error] No Content-Length.\n" := rfl

example : parseResponseHeader (generateResponse (newRep httpError (toSize (-1)))) =
    .error "[Error] No Content-Length.\n" := rfl

/-! ## The size -/

section Sizes

variable {v : ℤ} {n : ℕ} {b : UInt8}

/-- The symbols that are not in a field. -/
theorem notMem_field {c : UInt8} (hname : c ∉ ascii "Content-Length: ") (hminus : c ≠ 45)
    (hdigit : isDigit c = false) (v : ℤ) : c ∉ ascii "Content-Length: " ++ printInt v := by
  intro h
  rcases List.mem_append.mp h with h | h
  · exact hname h
  · rcases mem_printInt h with h | h
    · exact hminus h
    · exact Bool.false_ne_true (hdigit.symm.trans h)

/-- There is no line feed in the field up to its end. -/
theorem lf_notMem_field (v : ℤ) : 10 ∉ ascii "Content-Length: " ++ printInt v ++ [13] := by
  rw [List.mem_append, not_or]
  exact ⟨notMem_field (by decide) (by decide) (by decide) v, by decide⟩

/-- **A printed number is read back** by the client. -/
theorem contentLength_printInt (h : -2 ^ 63 ≤ v) (h' : v < 2 ^ 63) :
    contentLength (ascii "Content-Length: " ++ printInt v ++ crlfcrlf) = .ok (toSize v) := by
  have hstart : find (ascii "Content-Length: ")
      (ascii "Content-Length: " ++ printInt v ++ crlfcrlf) = some 0 := by
    rw [List.append_assoc]
    exact find_at_start (List.prefix_append _ _)
  have hend : find crlf (ascii "Content-Length: " ++ printInt v ++ crlfcrlf) =
      some (ascii "Content-Length: " ++ printInt v).length := by
    refine (find_append_iff (by decide)).mpr fun hin => ?_
    exact lf_notMem_field v (hin.subset (show 10 ∈ crlf by decide))
  have hstop : ∀ b ∈ crlfcrlf.head?, isDigit b = false := by
    intro b hb
    have hcr : crlfcrlf.head? = some 13 := by decide
    rw [hcr, Option.mem_some] at hb
    rw [← hb]
    decide
  have hnumber := strtol_printInt h h' hstop
  simp only [contentLength, hstart, List.drop_zero, hend]
  rw [List.append_assoc, List.drop_left, hnumber]
  simp

theorem newRep_cl (status : HttpStatus) (hn : n < 2 ^ 63) : (newRep status n).cl = n := by
  have hmax : toSize (-1) = 2 ^ 64 - 1 := by decide
  refine if_pos ?_
  rw [hmax]
  omega

/-- **What the client reads** of the response to a file of `n` bytes. -/
theorem parseResponseHeader_httpOk (hn : n < 2 ^ 63) :
    parseResponseHeader (generateResponse (newRep httpOk n)) =
      .ok ⟨ascii "HTTP/1.1 ", ascii "200 ", ascii "OK\r", toSize (toInt n)⟩ := by
  obtain ⟨hge, hlt⟩ := toInt_mem n
  have hhead : ascii "Content-Length: " ++ printInt (toInt n) ++ crlfcrlf ≠ [] :=
    List.append_ne_nil_of_right_ne_nil _ (by decide)
  rw [generateResponse_withLength (by exact List.prefix_refl _), newRep_cl httpOk hn]
  refine (parseResponseHeader_statusLine ?_ ?_ ?_ hhead).trans ?_
  · exact (by decide : 32 ∉ ascii "HTTP/1.1")
  · exact (by decide : 32 ∉ ascii "200")
  · exact (by decide : 13 ∉ ascii "OK")
  · rw [contentLength_printInt (by omega) (by omega)]
    refine congrArg Except.ok ?_
    rw [copied_of_lt (by exact (by decide : (ascii "HTTP/1.1").length + 1 < 2 ^ 31)),
      copied_of_lt (by exact (by decide : (ascii "200").length + 1 < 2 ^ 31)),
      copied_of_lt (by exact (by decide : (ascii "OK").length + 1 < 2 ^ 31))]
    rfl

/-- **The sizes that arrive**: the client reads a size for every file, and it is that of the file
exactly if that is less than `2 ^ 31`. -/
theorem sizes_arrive_iff (hn : n < 2 ^ 63) :
    (∃ rep, parseResponseHeader (generateResponse (newRep httpOk n)) = .ok rep ∧ rep.cl = n) ↔
      n < 2 ^ 31 := by
  rw [parseResponseHeader_httpOk hn, ← toSize_toInt_iff hn]
  constructor
  · rintro ⟨rep, hrep, hcl⟩
    rw [← Except.ok.inj hrep] at hcl
    simpa only using hcl
  · intro h
    refine ⟨_, rfl, ?_⟩
    simpa only using h

end Sizes

/-- A file of a thousand bytes. -/
theorem sizes_arrive_iff_thousand :
    ∃ rep, parseResponseHeader (generateResponse (newRep httpOk 1000)) = .ok rep ∧ rep.cl = 1000 :=
  (sizes_arrive_iff (by decide)).mpr (by decide)

/-- The size `2 ^ 31` is printed with a minus sign, and comes back as `2 ^ 64 - 2 ^ 31`. -/
theorem negative_size : ¬ ∀ n < 2 ^ 63,
    ∃ rep, parseResponseHeader (generateResponse (newRep httpOk n)) = .ok rep ∧ rep.cl = n := by
  intro h
  obtain ⟨rep, hrep, hcl⟩ := h (2 ^ 31) (by decide)
  rw [parseResponseHeader_httpOk (by decide)] at hrep
  rw [← Except.ok.inj hrep] at hcl
  exact absurd hcl (by decide)

end NetworkingLearning.Http
