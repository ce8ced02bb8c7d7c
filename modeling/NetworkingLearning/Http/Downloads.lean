import NetworkingLearning.Http.Responses
import NetworkingLearning.Machine.Runs

/-!
# Downloading a file (`http_client.c:186-223`)

What the client's `main` writes to `output`, from `recv_header` on. The bytes that `recv_header` has
left in `buf` come first (`http_client.c:204-206`), then what the loop receives while
`content_length` is greater than `content_received` (`http_client.c:208-217`). Neither is cut to the
length, though the last `recv` may bring more than is missing.

* The results of `recv` are one list, of which `recv_header` uses the first ones. They are any
  pieces of the stream, and a list that is used up is a peer that is waited for.
* `Download` is what has become of the client: it waits, it has failed with a text, or it has ended.

Results:
* `bodyLoop_iff`: the loop ends with as many bytes as it was asked for exactly if a `recv` does.
* `downloaded_iff`: the file is the first `cl` bytes after the header exactly if some `recv` ends
  with the last of them.

Out of scope: a `recv` that fails, and an `output` that cannot be written.
-/

namespace NetworkingLearning.Http

open NetworkingLearning.Machine NetworkingLearning.Text

/-- What has become of a download: it waits for `recv`, it has failed, or `output` is closed. -/
inductive Download
  | waits (output : List UInt8)
  | fails (error : String)
  | ends (output : List UInt8)
deriving DecidableEq

/-- The loop that receives the file. -/
def bodyLoop (contentLength : ℕ) :
    ℕ → List UInt8 → List UInt8 → List (List UInt8) → Option Download
  | contentReceived, _, output, [] =>
    some (if contentLength > contentReceived then .waits output else .ends output)
  | contentReceived, buf, output, chunk :: chunks =>
    if contentLength > contentReceived then
      (store buf 0 chunk).bind fun buf =>
      bodyLoop contentLength (u64 (contentReceived + chunk.length)) buf
        (output ++ buf.take chunk.length) chunks
    else some (.ends output)

/-- `main` from `recv_header` on. -/
def download (chunks : List (List UInt8)) : Option Download :=
  match recvHeader (recvInit emptyBuf) chunks with
  | none => none
  | some (.inl _) => some (.waits [])
  | some (.inr (r, chunks)) =>
    match parseResponseHeader r.responseHeader with
    | .error _ => some (.fails "Error parsing response.\n")
    | .ok response =>
      let output := if r.contentReceived ≠ 0 then r.buf.take r.contentReceived else []
      bodyLoop response.cl r.contentReceived r.buf output chunks

/-! ## The length -/

theorem toSize_lt (v : ℤ) : toSize v < 2 ^ 64 := by
  unfold toSize
  omega

/-- The length is a `size_t`. -/
theorem contentLength_lt {str : List UInt8} {cl : ℕ} (h : contentLength str = .ok cl) :
    cl < 2 ^ 64 := by
  unfold contentLength at h
  split at h
  · cases h
  · simp only at h
    split at h
    · cases h
    · split at h
      · cases h
      · rw [← Except.ok.inj h]
        exact toSize_lt _

theorem parseResponseHeader_cl_lt {header : List UInt8} {rep : HttpResponse}
    (h : parseResponseHeader header = .ok rep) : rep.cl < 2 ^ 64 := by
  obtain ⟨_, -, h⟩ := bind_ok.mp h
  obtain ⟨_, -, h⟩ := bind_ok.mp h
  obtain ⟨_, -, h⟩ := bind_ok.mp h
  obtain ⟨_, -, h⟩ := bind_ok.mp h
  obtain ⟨_, -, h⟩ := bind_ok.mp h
  obtain ⟨_, -, h⟩ := bind_ok.mp h
  obtain ⟨cl, hcl, h⟩ := bind_ok.mp h
  rw [← Except.ok.inj h]
  exact contentLength_lt hcl

/-! ## The loop -/

section Loop

variable {cl r n : ℕ} {buf output o : List UInt8} {chunks : List (List UInt8)}

theorem Segmented.le_maxBuffer (h : Segmented n r chunks) :
    ∀ chunk ∈ chunks, chunk.length ≤ maxBuffer := by
  induction chunks generalizing r with
  | nil => simp
  | cons chunk chunks ih =>
    obtain ⟨-, hle, hrest⟩ := h
    have hmax : maxBuffer - 1 ≤ maxBuffer := Nat.sub_le _ _
    intro c hc
    rcases List.mem_cons.mp hc with rfl | hc
    · split at hle <;> omega
    · exact ih hrest c hc

/-- Nothing that is written is taken back. -/
theorem bodyLoop_grows (h : bodyLoop cl r buf output chunks = some (.ends o)) : output <+: o := by
  induction chunks generalizing r buf output with
  | nil =>
    unfold bodyLoop at h
    split at h
    · nomatch h
    · cases h
      exact List.prefix_refl _
  | cons chunk chunks ih =>
    rw [bodyLoop] at h
    split at h
    · obtain ⟨buf', -, h⟩ := Option.bind_eq_some_iff.mp h
      exact (List.prefix_append _ _).trans (ih h)
    · cases h
      exact List.prefix_refl _

theorem bodyLoop_of_le (h : cl ≤ r) : bodyLoop cl r buf output chunks = some (.ends output) := by
  cases chunks with
  | nil => rw [bodyLoop, if_neg (not_lt.mpr h)]
  | cons chunk chunks => rw [bodyLoop, if_neg (not_lt.mpr h)]

/-- With enough bytes the loop ends at once, and has no more than `cl` if it has `cl`. -/
theorem bodyLoop_iff_of_le (h : cl ≤ output.length) :
    bodyLoop cl output.length buf output chunks =
        some (.ends ((output ++ chunks.flatten).take cl)) ↔
      ∃ k, output.length + (chunks.take k).flatten.length = cl := by
  rw [bodyLoop_of_le h]
  constructor
  · intro heq
    have hlen := congrArg List.length (Download.ends.inj (Option.some.inj heq))
    rw [List.length_take] at hlen
    refine ⟨0, ?_⟩
    rw [List.take_zero, List.flatten_nil, List.length_nil]
    omega
  · rintro ⟨k, hk⟩
    have hcl : cl = output.length := by omega
    rw [hcl, List.take_left]

/-- **The loop** ends with `cl` bytes exactly if a `recv` does. -/
theorem bodyLoop_iff (hcl : cl < 2 ^ 64) (hbuf : buf.length = maxBuffer)
    (hle : ∀ chunk ∈ chunks, chunk.length ≤ maxBuffer)
    (hall : cl ≤ (output ++ chunks.flatten).length) :
    bodyLoop cl output.length buf output chunks =
        some (.ends ((output ++ chunks.flatten).take cl)) ↔
      ∃ k, output.length + (chunks.take k).flatten.length = cl := by
  induction chunks generalizing buf output with
  | nil => exact bodyLoop_iff_of_le (by simpa using hall)
  | cons chunk chunks ih =>
    rcases le_or_gt cl output.length with hdone | hmore
    · exact bodyLoop_iff_of_le hdone
    obtain ⟨buf', hstore, hlen, htake⟩ :=
      store_zero buf chunk (by rw [hbuf]; exact hle chunk List.mem_cons_self)
    rw [bodyLoop, if_pos hmore, hstore, Option.bind_some, htake, List.flatten_cons,
      ← List.append_assoc]
    -- what the calls have received when the next one is made
    have hcalls : (∃ k, output.length + ((chunk :: chunks).take k).flatten.length = cl) ↔
        ∃ k, (output ++ chunk).length + (chunks.take k).flatten.length = cl := by
      constructor
      · rintro ⟨k, hk⟩
        cases k with
        | zero => exact absurd hk (by simp [hmore.ne])
        | succ k =>
          refine ⟨k, ?_⟩
          simpa [Nat.add_assoc] using hk
      · rintro ⟨k, hk⟩
        refine ⟨k + 1, ?_⟩
        simpa [Nat.add_assoc] using hk
    rw [hcalls]
    rcases le_or_gt (output ++ chunk).length cl with hfit | hover
    · have hsize : u64 (output.length + chunk.length) = (output ++ chunk).length := by
        rw [List.length_append] at hfit ⊢
        exact u64_of_lt (by omega)
      rw [hsize]
      refine ih (hlen.trans hbuf) (fun c hc => hle c (List.mem_cons_of_mem _ hc)) ?_
      rw [List.append_assoc]
      exact hall
    · refine iff_of_false (fun h => ?_) (fun ⟨k, hk⟩ => by omega)
      have hpre := (bodyLoop_grows h).length_le
      rw [List.length_take] at hpre
      omega

end Loop

/-! ## The file -/

section File

variable {header body : List UInt8} {chunks : List (List UInt8)} {rep : HttpResponse}

/-- Where the calls end, from the header on and from the start. -/
theorem boundary_iff {pre rest : List (List UInt8)} {chunk : List UInt8} {n cl : ℕ}
    (hpre : pre.flatten.length < n) (hchunk : n ≤ (pre.flatten ++ chunk).length) :
    (∃ k, ((pre.flatten ++ chunk).drop n).length + (rest.take k).flatten.length = cl) ↔
      ∃ k, ((pre ++ chunk :: rest).take k).flatten.length = n + cl := by
  have hlen : ((pre.flatten ++ chunk).drop n).length = (pre.flatten ++ chunk).length - n :=
    List.length_drop
  have hsplit : ∀ k, ((pre ++ chunk :: rest).take (pre.length + (k + 1))).flatten.length =
      (pre.flatten ++ chunk).length + (rest.take k).flatten.length := by
    intro k
    rw [List.take_length_add_append, List.take_succ_cons, List.flatten_append, List.flatten_cons]
    simp only [List.length_append]
    omega
  constructor
  · rintro ⟨k, hk⟩
    refine ⟨pre.length + (k + 1), ?_⟩
    rw [hsplit]
    omega
  · rintro ⟨k, hk⟩
    rcases Nat.lt_or_ge pre.length k with hlt | hge
    · obtain ⟨j, rfl⟩ := Nat.exists_eq_add_of_lt hlt
      rw [Nat.add_assoc, hsplit] at hk
      exact ⟨j, by omega⟩
    · have hsub := congrArg (fun l => l.flatten.length) (List.take_append_drop k pre)
      simp only [List.flatten_append, List.length_append] at hsub
      rw [List.take_append_of_le_length hge] at hk
      omega

/-- **The file** is the first `cl` bytes after the header exactly if some `recv` ends with the last
of them. -/
theorem downloaded_iff (hheader : IsHeader header) (hrep : parseResponseHeader header = .ok rep)
    (hbody : rep.cl ≤ body.length) (hstream : chunks.flatten = header ++ body)
    (hseg : Segmented header.length 0 chunks) :
    download chunks = some (.ends (body.take rep.cl)) ↔
      ∃ k, (chunks.take k).flatten.length = header.length + rep.cl := by
  obtain ⟨pre, chunk, rest, r, rfl, hr, hresponse, hpre, hchunk, hcontent, hbuf, htake⟩ :=
    recvHeader_isHeader hheader hstream hseg length_emptyBuf
  have hle : ∀ c ∈ rest, c.length ≤ maxBuffer := fun c hc =>
    hseg.le_maxBuffer c (List.mem_append_right _ (List.mem_cons_of_mem _ hc))
  -- the bytes in `buf` and those of the other calls are the body
  have hjoin : (pre.flatten ++ chunk).drop header.length ++ rest.flatten = body := by
    rw [← List.drop_append_of_le_length hchunk, List.append_assoc, ← List.flatten_cons,
      ← List.flatten_append, hstream, List.drop_left]
  have houtput : (if r.contentReceived ≠ 0 then r.buf.take r.contentReceived else []) =
      (pre.flatten ++ chunk).drop header.length := by
    rw [← htake]
    split
    · rfl
    · rename_i hzero
      rw [not_not.mp hzero, List.take_zero]
  have hsize : r.contentReceived = ((pre.flatten ++ chunk).drop header.length).length := by
    rw [hcontent, List.length_drop]
  have hloop := bodyLoop_iff (parseResponseHeader_cl_lt hrep) hbuf hle
    (by rw [hjoin]; exact hbody)
  rw [hjoin, boundary_iff hpre hchunk, ← hsize] at hloop
  rw [← hloop]
  simp only [download, hr, hresponse, hrep, houtput]

end File

/-- A header for two bytes. -/
def twoBytes : List UInt8 := ascii "HTTP/1.1 200 OK\r\nContent-Length: 2\r\n\r\n"

theorem isHeader_twoBytes : IsHeader twoBytes := ⟨by decide, by decide⟩

theorem parseResponseHeader_twoBytes : parseResponseHeader twoBytes =
    .ok ⟨ascii "HTTP/1.1 ", ascii "200 ", ascii "OK\r", 2⟩ := by decide

/-- Two bytes in two pieces, the first of them with the header. -/
theorem downloaded_iff_twoBytes :
    download [twoBytes ++ [97], [98]] = some (.ends [97, 98]) := by
  have hstream : [twoBytes ++ [97], [98]].flatten = twoBytes ++ [97, 98] := by decide
  have hseg : Segmented twoBytes.length 0 [twoBytes ++ [97], [98]] := by decide
  exact (downloaded_iff isHeader_twoBytes parseResponseHeader_twoBytes le_rfl hstream hseg).mpr
    ⟨2, by decide⟩

/-- A byte that arrives with the last of the body is written too. -/
theorem excess_written : ¬ ∀ (header body : List UInt8) (chunks : List (List UInt8))
    (rep : HttpResponse), IsHeader header → parseResponseHeader header = .ok rep →
    rep.cl ≤ body.length → chunks.flatten = header ++ body → Segmented header.length 0 chunks →
    download chunks = some (.ends (body.take rep.cl)) := by
  intro h
  have hstream : [twoBytes ++ [97, 98, 99]].flatten = twoBytes ++ [97, 98, 99] := by decide
  have hseg : Segmented twoBytes.length 0 [twoBytes ++ [97, 98, 99]] := by decide
  have hend := h _ _ _ _ isHeader_twoBytes parseResponseHeader_twoBytes (by decide) hstream hseg
  exact absurd hend (by decide +kernel)

end NetworkingLearning.Http
