import NetworkingLearning.Machine.Buffers
import NetworkingLearning.Text.Search
import NetworkingLearning.Text.Decimal

/-!
# Receiving a header (`http_client.c:55-99`, `http_server.c:98-141`)

Model of `recv_header`. The two programs have one, but for the name of the size of `buf` and a line
that prints what has been received.

* The results of `recv` are given as the list of what each call has received. `recvRound` is one
  round of the loop, `recvHeader` the loop: it ends in a header, or has used up the list.
* `response` is the part of `response_buf` that has been stored, `bytes_received` its length. There
  is a zero behind it, so that `strstr` reads no further; a zero in what was received ends the
  string earlier, which `cstr` says.
* `response_length` is the size of the array, and `grown` the loop that doubles it
  (`http_client.c:69-71`).
* A store outside of `response_buf` or `buf` has no result.
* A `Segmented` list of results is one that calls of `recv` can have: no piece is empty, and none is
  longer than what is asked for, which is `MAXDATASIZE - 1` up to the end of the header and
  `MAXDATASIZE` behind it.

Results:
* `recvHeader_spec`: the header is the stream up to its first `CRLFCRLF`, however the stream is cut,
  and the rest of the last piece is in `buf`.
* `recvHeader_exact`: so nothing is lost, and nothing is in both.
* `recvHeader_whole_iff`: a stream that has the end of a header is all of it exactly if that end is
  its own.

Out of scope: a `recv` that fails, and a `realloc` that does. Both return `-1`. An array has less
than `2 ^ 63` bytes, so that no length wraps.
-/

namespace NetworkingLearning.Http

open NetworkingLearning.Machine NetworkingLearning.Text

/-- The string in an array: what is before the first zero. -/
def cstr (bytes : List UInt8) : List UInt8 := bytes.takeWhile (· != 0)

def crlf : List UInt8 := ascii "\r\n"

def crlfcrlf : List UInt8 := ascii "\r\n\r\n"

/-- `MAXDATASIZE` of the client, `MAX_BUFFER` of the server. -/
def maxBuffer : ℕ := 1024

/-- `char buf[…] = ""`. -/
def emptyBuf : List UInt8 := List.replicate maxBuffer 0

/-- The variables of the loop of `recv_header`. -/
structure Receiving where
  responseLength : ℕ
  response : List UInt8
  buf : List UInt8

/-- What `recv_header` returns. -/
structure Received where
  responseHeader : List UInt8
  contentReceived : ℕ
  buf : List UInt8

/-- `do response_length *= 2 while (needed > response_length)`. -/
def doubled (needed : ℕ) : ℕ → ℕ → ℕ
  | 0, responseLength => responseLength
  | fuel + 1, responseLength =>
    if needed > 2 * responseLength then doubled needed fuel (2 * responseLength)
    else 2 * responseLength

/-- The length of `response_buf` for `needed` bytes. -/
def grown (needed responseLength : ℕ) : ℕ :=
  if needed > responseLength then doubled needed needed responseLength else responseLength

/-- `recv_header` up to its loop. -/
def recvInit (buf : List UInt8) : Receiving := ⟨512, [], buf⟩

/-- A round of `recv_header` in which `chunk` is received. -/
def recvRound (s : Receiving) (chunk : List UInt8) : Option (Receiving ⊕ Received) :=
  (store s.buf 0 chunk).bind fun buf =>
  (store buf chunk.length [0]).bind fun buf =>
  let responseLength := grown (s.response.length + chunk.length + 1) s.responseLength
  let response := s.response ++ chunk
  if responseLength < response.length + 1 then none
  else match find crlfcrlf (cstr response) with
    | none => some (.inl ⟨responseLength, response, buf⟩)
    | some i =>
      let headerLength := i + 4
      let contentReceived := response.length - headerLength
      (store buf 0 (response.drop headerLength)).map fun buf =>
        .inr ⟨response.take headerLength, contentReceived, buf⟩

/-- `recv_header`, with what is left of the results. -/
def recvHeader : Receiving → List (List UInt8) →
    Option (Receiving ⊕ (Received × List (List UInt8)))
  | s, [] => some (.inl s)
  | s, chunk :: chunks =>
    match recvRound s chunk with
    | none => none
    | some (.inl s) => recvHeader s chunks
    | some (.inr r) => some (.inr (r, chunks))

/-- The results of calls that ask for `MAXDATASIZE - 1` bytes until `n` have been received, and for
`MAXDATASIZE` from then on; `r` have been received before. -/
def Segmented (n : ℕ) : ℕ → List (List UInt8) → Prop
  | _, [] => True
  | r, chunk :: chunks => 0 < chunk.length ∧
    chunk.length ≤ (if r < n then maxBuffer - 1 else maxBuffer) ∧
      Segmented n (r + chunk.length) chunks

instance Segmented.decidable (n : ℕ) : ∀ r chunks, Decidable (Segmented n r chunks)
  | _, [] => isTrue trivial
  | r, chunk :: chunks =>
    haveI := Segmented.decidable n (r + chunk.length) chunks
    inferInstanceAs (Decidable (0 < chunk.length ∧ _ ∧ Segmented n (r + chunk.length) chunks))

/-- Results of at most `MAXDATASIZE - 1` bytes each are such. -/
theorem segmented_of_le {chunks : List (List UInt8)}
    (h : ∀ chunk ∈ chunks, 0 < chunk.length ∧ chunk.length ≤ maxBuffer - 1) (n r : ℕ) :
    Segmented n r chunks := by
  induction chunks generalizing r with
  | nil => trivial
  | cons chunk chunks ih =>
    obtain ⟨hpos, hle⟩ := h chunk List.mem_cons_self
    refine ⟨hpos, ?_, ih (fun c hc => h c (List.mem_cons_of_mem _ hc)) _⟩
    split
    · exact hle
    · exact hle.trans (Nat.sub_le _ _)

@[simp] theorem length_emptyBuf : emptyBuf.length = maxBuffer := List.length_replicate

theorem cstr_take (bytes : List UInt8) (n : ℕ) : cstr (bytes.take n) = (cstr bytes).take n :=
  List.take_takeWhile.symm

theorem cstr_append {bytes : List UInt8} (h : 0 ∉ bytes) (rest : List UInt8) :
    cstr (bytes ++ rest) = bytes ++ cstr rest := List.takeWhile_append_of_pos (all_ne_of_notMem h)

theorem cstr_of_notMem {bytes : List UInt8} (h : 0 ∉ bytes) : cstr bytes = bytes :=
  List.takeWhile_eq_self_iff.mpr (all_ne_of_notMem h)

@[simp] theorem length_crlfcrlf : crlfcrlf.length = 4 := by decide

/-- What has been received decides whether the end of the header is found. -/
theorem find_received {bytes rest : List UInt8} {i : ℕ}
    (h : find crlfcrlf (cstr (bytes ++ rest)) = some i) :
    find crlfcrlf (cstr bytes) = if i + 4 ≤ bytes.length then some i else none := by
  have hcut : (bytes ++ rest).take bytes.length = bytes := List.take_left
  rw [← length_crlfcrlf, ← find_take (by decide) h, ← cstr_take, hcut]

/-! ## Growing -/

theorem doubled_ge {needed fuel len : ℕ} (hlen : 0 < len) (hfuel : needed ≤ fuel + len) :
    needed ≤ doubled needed fuel len ∧ 0 < doubled needed fuel len := by
  induction fuel generalizing len with
  | zero => exact ⟨by simpa [doubled] using hfuel, hlen⟩
  | succ fuel ih =>
    rw [doubled]
    split
    · exact ih (by omega) (by omega)
    · omega

theorem grown_ge {len : ℕ} (hlen : 0 < len) (needed : ℕ) :
    needed ≤ grown needed len ∧ 0 < grown needed len := by
  unfold grown
  split
  · exact doubled_ge hlen (by omega)
  · omega

/-! ## The header -/

/-- What holds of the variables in every round. -/
structure Receiving.Ok (s : Receiving) : Prop where
  buf : s.buf.length = maxBuffer
  responseLength : 0 < s.responseLength

theorem recvInit_ok {buf : List UInt8} (h : buf.length = maxBuffer) : (recvInit buf).Ok :=
  ⟨h, Nat.succ_pos 511⟩

section Rounds

variable {s : Receiving} {chunk : List UInt8} {i : ℕ}

/-- A piece and its zero fit into `buf`. -/
theorem store_chunk (hs : s.Ok) (hle : chunk.length ≤ maxBuffer - 1) :
    ∃ buf buf', store s.buf 0 chunk = some buf ∧ store buf chunk.length [0] = some buf' ∧
      buf'.length = maxBuffer := by
  have hmax : maxBuffer - 1 + 1 = maxBuffer := rfl
  have hbuf := hs.buf
  obtain ⟨buf, hstore, hlen, -⟩ := store_zero s.buf chunk (by omega)
  obtain ⟨buf', hstore', hlen', -⟩ :=
    store_of_le buf chunk.length [0] (by rw [List.length_singleton]; omega)
  exact ⟨buf, buf', hstore, hstore', by omega⟩

theorem length_grown (hs : s.Ok) (chunk : List UInt8) :
    ¬ grown (s.response.length + chunk.length + 1) s.responseLength <
      (s.response ++ chunk).length + 1 := by
  have hge := (grown_ge hs.responseLength (s.response.length + chunk.length + 1)).1
  rw [List.length_append]
  omega

/-- **A round without the end of the header** keeps what it has received. -/
theorem recvRound_again (hs : s.Ok) (hle : chunk.length ≤ maxBuffer - 1)
    (hfind : find crlfcrlf (cstr (s.response ++ chunk)) = none) :
    ∃ s', recvRound s chunk = some (.inl s') ∧ s'.Ok ∧ s'.response = s.response ++ chunk := by
  obtain ⟨buf, buf', hstore, hstore', hlen⟩ := store_chunk hs hle
  refine ⟨⟨grown (s.response.length + chunk.length + 1) s.responseLength, _, buf'⟩, ?_,
    ⟨hlen, (grown_ge hs.responseLength _).2⟩, rfl⟩
  simp only [recvRound, hstore, hstore', Option.bind_some, if_neg (length_grown hs chunk), hfind]

/-- **The round with the end of the header** leaves what follows it in `buf`. -/
theorem recvRound_done (hs : s.Ok) (hle : chunk.length ≤ maxBuffer - 1)
    (hfind : find crlfcrlf (cstr (s.response ++ chunk)) = some i) (hi : s.response.length ≤ i + 4) :
    ∃ r, recvRound s chunk = some (.inr r) ∧
      r.responseHeader = (s.response ++ chunk).take (i + 4) ∧
      r.contentReceived = (s.response ++ chunk).length - (i + 4) ∧
      r.buf.length = maxBuffer ∧
      r.buf.take r.contentReceived = (s.response ++ chunk).drop (i + 4) := by
  obtain ⟨buf, buf', hstore, hstore', hlen⟩ := store_chunk hs hle
  have hleft : ((s.response ++ chunk).drop (i + 4)).length =
      (s.response ++ chunk).length - (i + 4) := List.length_drop
  obtain ⟨buf₃, hstore₃, hlen₃, htake⟩ :=
    store_zero buf' ((s.response ++ chunk).drop (i + 4)) (by
      rw [hleft, hlen, List.length_append]
      unfold maxBuffer at hle ⊢
      omega)
  rw [hleft] at htake
  refine ⟨⟨_, _, buf₃⟩, ?_, rfl, rfl, hlen₃.trans hlen, htake⟩
  simp only [recvRound, hstore, hstore', Option.bind_some, if_neg (length_grown hs chunk), hfind,
    hstore₃, Option.map_some]

/-- **The header** is the stream up to its first `CRLFCRLF`. The last piece, `chunk`, has the end
of it, and what it has besides is in `buf`. -/
theorem recvHeader_spec {chunks : List (List UInt8)} (hs : s.Ok)
    (hseg : Segmented (i + 4) s.response.length chunks)
    (hfind : find crlfcrlf (cstr (s.response ++ chunks.flatten)) = some i)
    (hi : s.response.length < i + 4) :
    ∃ pre chunk rest r, chunks = pre ++ chunk :: rest ∧
      recvHeader s chunks = some (.inr (r, rest)) ∧
      r.responseHeader = (s.response ++ chunks.flatten).take (i + 4) ∧
      (s.response ++ pre.flatten).length < i + 4 ∧
      i + 4 ≤ (s.response ++ pre.flatten ++ chunk).length ∧
      r.contentReceived = (s.response ++ pre.flatten ++ chunk).length - (i + 4) ∧
      r.buf.length = maxBuffer ∧
      r.buf.take r.contentReceived = (s.response ++ pre.flatten ++ chunk).drop (i + 4) := by
  induction chunks generalizing s with
  | nil =>
    have hnone := find_received hfind
    rw [List.flatten_nil, List.append_nil] at hfind
    rw [hfind, if_neg (by omega)] at hnone
    nomatch hnone
  | cons chunk chunks ih =>
    obtain ⟨-, hle, hrest⟩ := hseg
    rw [if_pos hi] at hle
    rw [List.flatten_cons, ← List.append_assoc] at hfind
    have hround := find_received hfind
    by_cases hdone : i + 4 ≤ (s.response ++ chunk).length
    · rw [if_pos hdone] at hround
      obtain ⟨r, hr, hheader, hcontent, hlen, htake⟩ := recvRound_done hs hle hround hi.le
      refine ⟨[], chunk, chunks, r, rfl, ?_, ?_, ?_, ?_, ?_, hlen, ?_⟩
      · simp only [recvHeader, hr]
      · rw [hheader, List.flatten_cons, ← List.append_assoc, List.take_append_of_le_length hdone]
      · simpa using hi
      · simpa using hdone
      · simpa using hcontent
      · simpa using htake
    · rw [if_neg hdone] at hround
      obtain ⟨s', hs', hok, hresponse⟩ := recvRound_again hs hle hround
      have hlen : s'.response.length = s.response.length + chunk.length := by
        rw [hresponse, List.length_append]
      obtain ⟨pre, last, rest, r, rfl, hr, hheader, hrest⟩ := ih hok (hlen ▸ hrest)
        (hresponse ▸ hfind) (by rw [hresponse]; omega)
      refine ⟨chunk :: pre, last, rest, r, rfl, ?_, ?_, ?_⟩
      · simp only [recvHeader, hs', hr]
      · rw [hheader, hresponse, List.flatten_cons, List.append_assoc]
      · rw [hresponse, List.append_assoc] at hrest
        exact hrest

end Rounds

/-- A header ends with its only `CRLFCRLF`, and has no zero. -/
structure IsHeader (header : List UInt8) : Prop where
  zero : 0 ∉ header
  ends : find crlfcrlf header = some (header.length - crlfcrlf.length)

/-- **A header is received** from a stream that it starts. -/
theorem recvHeader_isHeader {header body buf : List UInt8} {chunks : List (List UInt8)}
    (hheader : IsHeader header) (hstream : chunks.flatten = header ++ body)
    (hseg : Segmented header.length 0 chunks) (hbuf : buf.length = maxBuffer) :
    ∃ pre chunk rest r, chunks = pre ++ chunk :: rest ∧
      recvHeader (recvInit buf) chunks = some (.inr (r, rest)) ∧ r.responseHeader = header ∧
      pre.flatten.length < header.length ∧ header.length ≤ (pre.flatten ++ chunk).length ∧
      r.contentReceived = (pre.flatten ++ chunk).length - header.length ∧
      r.buf.length = maxBuffer ∧
      r.buf.take r.contentReceived = (pre.flatten ++ chunk).drop header.length := by
  have hlen := find_le hheader.ends
  have hfour := length_crlfcrlf
  have hi : header.length - crlfcrlf.length + 4 = header.length := by omega
  have hfind : find crlfcrlf (cstr ((recvInit buf).response ++ chunks.flatten)) =
      some (header.length - crlfcrlf.length) := by
    rw [hstream]
    exact (congrArg _ (cstr_append hheader.zero body)).trans (find_append hheader.ends _)
  have hpos : (recvInit buf).response.length < header.length - crlfcrlf.length + 4 :=
    Nat.succ_pos _
  obtain ⟨pre, chunk, rest, r, hchunks, hr, hresponse, hrest⟩ :=
    recvHeader_spec (recvInit_ok hbuf) (by rw [hi]; exact hseg) hfind hpos
  rw [hi] at hresponse hrest
  refine ⟨pre, chunk, rest, r, hchunks, hr, ?_, hrest⟩
  rw [hresponse, hstream]
  exact List.take_left

/-- **The stream is cut at the right place**, however it comes in pieces: the header is the shortest
prefix that ends in `CRLFCRLF`, and what else has been received is in `buf`. -/
theorem recvHeader_exact {stream pre post buf : List UInt8} {chunks : List (List UInt8)}
    (hends : stream = pre ++ crlfcrlf ++ post) (hzero : 0 ∉ pre) (hstream : chunks.flatten = stream)
    (hseg : ∀ chunk ∈ chunks, 1 ≤ chunk.length ∧ chunk.length ≤ maxBuffer - 1)
    (hbuf : buf.length = maxBuffer) :
    ∃ k r, recvHeader (recvInit buf) chunks = some (.inr (r, chunks.drop k)) ∧
      ShortestEnding crlfcrlf stream r.responseHeader ∧
      r.responseHeader ++ r.buf.take r.contentReceived = (chunks.take k).flatten ∧
      r.contentReceived < maxBuffer ∧ r.buf.length = maxBuffer := by
  have hfour := length_crlfcrlf
  -- the first end of a header is in front of the first zero
  have hcstr : cstr stream = pre ++ crlfcrlf ++ cstr post := by
    rw [hends]
    exact cstr_append (by simpa [hzero] using (by decide : 0 ∉ crlfcrlf)) post
  cases hf : find crlfcrlf (cstr stream) with
  | none =>
    rw [hcstr] at hf
    exact absurd (List.infix_append _ _ _) (find_eq_none_iff.mp hf)
  | some i =>
    obtain ⟨rest, hrest⟩ : cstr stream <+: stream := List.takeWhile_prefix _
    have hfind : find crlfcrlf stream = some i := hrest ▸ find_append hf rest
    have hcut := find_shortest hfind
    rw [hfour] at hcut
    obtain ⟨before, chunk, rest, r, rfl, hr, hheader, hlt, hle, hcontent, hlen, htake⟩ :=
      recvHeader_spec (recvInit_ok hbuf) (segmented_of_le hseg (i + 4) 0)
        (by rw [hstream]; exact hf) (Nat.succ_pos _)
    have hinit : (recvInit buf).response = [] := rfl
    rw [hinit, List.nil_append] at hheader hlt hle hcontent htake
    have hchunk := (hseg chunk (by simp)).2
    refine ⟨before.length + 1, r, ?_, ?_, ?_, ?_, hlen⟩
    · rw [hr, List.drop_length_add_append]
      rfl
    · rw [hheader, hstream]
      exact hcut
    · have htaken : ((before ++ chunk :: rest).take (before.length + 1)).flatten =
          before.flatten ++ chunk := by
        rw [List.take_length_add_append]
        simp
      have hfirst : (before ++ chunk :: rest).flatten =
          before.flatten ++ chunk ++ rest.flatten := by simp
      rw [htake, hheader, htaken, hfirst, List.take_append_of_le_length hle]
      exact List.take_append_drop _ _
    · rw [List.length_append] at hcontent
      unfold maxBuffer at hchunk ⊢
      omega

/-- The end of a header in two pieces. -/
theorem recvHeader_exact_split : ∃ k r,
    recvHeader (recvInit emptyBuf) [[97, 13], [10, 13, 10, 98]] =
      some (.inr (r, [[97, 13], [10, 13, 10, 98]].drop k)) ∧
    r.responseHeader ++ r.buf.take r.contentReceived =
      ([[97, 13], [10, 13, 10, 98]].take k).flatten := by
  have hends : ([97, 13, 10, 13, 10, 98] : List UInt8) = [97] ++ crlfcrlf ++ [98] := by decide
  have hstream : [[97, 13], [10, 13, 10, 98]].flatten = ([97, 13, 10, 13, 10, 98] : List UInt8) :=
    rfl
  obtain ⟨k, r, hr, -, hjoin, -⟩ :=
    recvHeader_exact hends (by decide) hstream (by decide) length_emptyBuf
  exact ⟨k, r, hr, hjoin⟩

/-- **A stream that has an end of a header** is received as one header, with nothing left over,
exactly if that is one. -/
theorem recvHeader_whole_iff {stream buf : List UInt8} {chunks : List (List UInt8)}
    (hzero : 0 ∉ stream) (hends : crlfcrlf <:+: stream) (hstream : chunks.flatten = stream)
    (hseg : ∀ chunk ∈ chunks, 0 < chunk.length ∧ chunk.length ≤ maxBuffer - 1)
    (hbuf : buf.length = maxBuffer) :
    (∃ r, recvHeader (recvInit buf) chunks = some (.inr (r, [])) ∧
      r.responseHeader = stream ∧ r.contentReceived = 0) ↔ IsHeader stream := by
  have hfour := length_crlfcrlf
  constructor
  · rintro ⟨r, hr, hresponse, -⟩
    cases hf : find crlfcrlf stream with
    | none => exact absurd hends (find_eq_none_iff.mp hf)
    | some i =>
      have hfind : find crlfcrlf (cstr ((recvInit buf).response ++ chunks.flatten)) = some i := by
        rw [hstream]
        exact (congrArg _ (cstr_of_notMem hzero)).trans hf
      obtain ⟨_, _, rest, r', -, hr', hresponse', -⟩ :=
        recvHeader_spec (recvInit_ok hbuf) (segmented_of_le hseg _ _) hfind (Nat.succ_pos _)
      obtain ⟨rfl, -⟩ := Prod.mk.inj (Sum.inr.inj (Option.some.inj (hr.symm.trans hr')))
      have hcut := congrArg List.length (hresponse.symm.trans hresponse')
      have hle := find_le hf
      rw [hstream, List.length_take, List.length_append] at hcut
      refine ⟨hzero, hf.trans (congrArg some ?_)⟩
      change stream.length = min (i + 4) (0 + stream.length) at hcut
      omega
  · intro hheader
    have hflat : chunks.flatten = stream ++ [] := by rw [hstream, List.append_nil]
    obtain ⟨pre, chunk, rest, r, rfl, hr, hresponse, -, hle, hcontent, -⟩ :=
      recvHeader_isHeader hheader hflat (segmented_of_le hseg _ _) hbuf
    have hlen := congrArg List.length hstream
    rw [List.flatten_append, List.flatten_cons, ← List.append_assoc, List.length_append] at hlen
    have hrest : rest = [] := by
      cases rest with
      | nil => rfl
      | cons c rest =>
        have hpos := (hseg c (by simp)).1
        simp only [List.flatten_cons, List.length_append] at hlen hle
        omega
    exact ⟨r, hrest ▸ hr, hresponse, by omega⟩

end NetworkingLearning.Http
