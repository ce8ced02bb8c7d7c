import NetworkingLearning.Http.Downloads

/-!
# When the peer closes (`http_client.c:60-98`, `http_client.c:208-217`, `http_server.c:103-140`)

A peer that has closed its socket is one from which `recv` has received nothing, from then on. The
loops test a result for `-1`. One of nothing is no error to them, and leaves everything as it is:
`recv_header` of both programs and the loop of the client's `main` go round for ever.

* `closed` is such a list of results: those before, and a number of empty ones behind them. That a
  loop ends means that it does for some number of them.

Results:
* `recvHeader_ends_iff`: the loop of `recv_header` ends exactly if the end of the header has come.
* `bodyLoop_ends_iff`: the loop of the file ends exactly if as much has come as it asks for.
* `loops_end_iff`: both.
-/

namespace NetworkingLearning.Http

open NetworkingLearning.Machine NetworkingLearning.Text

/-- The results of `recv` from a peer that closes, with those of `n` calls after that. -/
def closed (chunks : List (List UInt8)) (n : ℕ) : List (List UInt8) :=
  chunks ++ List.replicate n []

section Closed

variable {chunks : List (List UInt8)} {n k : ℕ}

@[simp] theorem flatten_closed (chunks : List (List UInt8)) (n : ℕ) :
    (closed chunks n).flatten = chunks.flatten := by
  rw [closed, List.flatten_append, List.flatten_replicate_nil, List.append_nil]

@[simp] theorem flatten_take_closed (chunks : List (List UInt8)) (n k : ℕ) :
    ((closed chunks n).take k).flatten = (chunks.take k).flatten := by
  rw [closed, List.take_append, List.take_replicate, List.flatten_append,
    List.flatten_replicate_nil, List.append_nil]

theorem length_of_mem_closed {m : ℕ} (h : ∀ chunk ∈ chunks, chunk.length ≤ m) :
    ∀ chunk ∈ closed chunks n, chunk.length ≤ m := by
  intro chunk hc
  rcases List.mem_append.mp hc with hc | hc
  · exact h chunk hc
  · rw [List.eq_of_mem_replicate hc]
    exact Nat.zero_le m

end Closed

/-! ## The header -/

section Header

variable {s : Receiving} {buf : List UInt8} {chunks : List (List UInt8)}

theorem prefix_cstr (bytes rest : List UInt8) : cstr bytes <+: cstr (bytes ++ rest) := by
  have hcut : (bytes ++ rest).take bytes.length = bytes := List.take_left
  rw [← hcut, cstr_take, hcut]
  exact List.take_prefix _ _

/-- **Without the end of a header** every round is followed by another one. -/
theorem recvHeader_waits (hs : s.Ok) (hle : ∀ chunk ∈ chunks, chunk.length ≤ maxBuffer - 1)
    (hnone : ¬ crlfcrlf <:+: cstr (s.response ++ chunks.flatten)) :
    ∃ s', recvHeader s chunks = some (.inl s') := by
  induction chunks generalizing s with
  | nil => exact ⟨s, rfl⟩
  | cons chunk chunks ih =>
    rw [List.flatten_cons, ← List.append_assoc] at hnone
    have hfind : find crlfcrlf (cstr (s.response ++ chunk)) = none :=
      find_eq_none_iff.mpr fun hin => hnone (hin.trans (prefix_cstr _ _).isInfix)
    obtain ⟨s', hs', hok, hresponse⟩ := recvRound_again hs (hle chunk List.mem_cons_self) hfind
    obtain ⟨s'', hrest⟩ := ih hok (fun c hc => hle c (List.mem_cons_of_mem _ hc))
      (hresponse ▸ hnone)
    exact ⟨s'', by simp only [recvHeader, hs', hrest]⟩

/-- **The loop of `recv_header`** ends exactly if the end of the header has come, and no zero before
it. -/
theorem recvHeader_ends_iff (hbuf : buf.length = maxBuffer)
    (hseg : ∀ chunk ∈ chunks, 0 < chunk.length ∧ chunk.length ≤ maxBuffer - 1) :
    (∃ n r, recvHeader (recvInit buf) (closed chunks n) = some (.inr r)) ↔
      crlfcrlf <:+: cstr chunks.flatten := by
  have hok := recvInit_ok hbuf
  constructor
  · rintro ⟨n, r, hr⟩
    by_contra hnone
    have hle : ∀ chunk ∈ closed chunks n, chunk.length ≤ maxBuffer - 1 :=
      length_of_mem_closed fun c hc => (hseg c hc).2
    obtain ⟨s', hs'⟩ := recvHeader_waits hok hle (by rwa [flatten_closed])
    nomatch hr.symm.trans hs'
  · intro hin
    cases hf : find crlfcrlf (cstr chunks.flatten) with
    | none => exact absurd hin (find_eq_none_iff.mp hf)
    | some i =>
      obtain ⟨-, -, rest, r, -, hr, -⟩ :=
        recvHeader_spec hok (segmented_of_le hseg (i + 4) 0) hf (Nat.succ_pos _)
      exact ⟨0, (r, rest), by rw [closed, List.replicate_zero, List.append_nil, hr]⟩

end Header

/-! ## The file -/

section Body

variable {cl r : ℕ} {buf output : List UInt8} {chunks : List (List UInt8)}

@[simp] theorem u64_add (a b : ℕ) : u64 (u64 a + b) = u64 (a + b) := Nat.mod_add_mod a (2 ^ 64) b

/-- What has come after a call, and is still to come. -/
theorem enough_cons {chunk : List UInt8} (hr : r < 2 ^ 64) (hmore : r < cl) :
    (∃ k, cl ≤ u64 (r + ((chunk :: chunks).take k).flatten.length)) ↔
      ∃ k, cl ≤ u64 (u64 (r + chunk.length) + (chunks.take k).flatten.length) := by
  have hsplit : ∀ k, u64 (r + ((chunk :: chunks).take (k + 1)).flatten.length) =
      u64 (u64 (r + chunk.length) + (chunks.take k).flatten.length) := by
    intro k
    rw [u64_add, List.take_succ_cons, List.flatten_cons, List.length_append, Nat.add_assoc]
  constructor
  · rintro ⟨k, hk⟩
    cases k with
    | zero =>
      rw [List.take_zero, List.flatten_nil, List.length_nil, Nat.add_zero, u64_of_lt hr] at hk
      exact absurd hmore (not_lt.mpr hk)
    | succ k => exact ⟨k, hsplit k ▸ hk⟩
  · rintro ⟨k, hk⟩
    exact ⟨k + 1, (hsplit k).symm ▸ hk⟩

/-- The results of some calls are enough. -/
theorem bodyLoop_enough (hr : r < 2 ^ 64) (hbuf : buf.length = maxBuffer)
    (hle : ∀ chunk ∈ chunks, chunk.length ≤ maxBuffer) :
    (∃ o, bodyLoop cl r buf output chunks = some (.ends o)) ↔
      ∃ k, cl ≤ u64 (r + (chunks.take k).flatten.length) := by
  induction chunks generalizing r buf output with
  | nil =>
    simp only [List.take_nil, List.flatten_nil, List.length_nil, Nat.add_zero, u64_of_lt hr,
      exists_const]
    rcases le_or_gt cl r with hdone | hmore
    · exact iff_of_true ⟨output, bodyLoop_of_le hdone⟩ hdone
    · rw [bodyLoop, if_pos hmore]
      refine iff_of_false ?_ (not_le.mpr hmore)
      rintro ⟨o, h⟩
      cases h
  | cons chunk chunks ih =>
    rcases le_or_gt cl r with hdone | hmore
    · refine iff_of_true ⟨output, bodyLoop_of_le hdone⟩ ⟨0, ?_⟩
      rw [List.take_zero, List.flatten_nil, List.length_nil, Nat.add_zero, u64_of_lt hr]
      exact hdone
    · obtain ⟨buf', hstore, hlen, -⟩ :=
        store_zero buf chunk (by rw [hbuf]; exact hle chunk List.mem_cons_self)
      rw [bodyLoop, if_pos hmore, hstore, Option.bind_some, enough_cons hr hmore]
      exact ih (u64_lt _) (hlen.trans hbuf) fun c hc => hle c (List.mem_cons_of_mem _ hc)

/-- **The loop of the file** ends exactly if as much has come as it asks for. -/
theorem bodyLoop_ends_iff (hr : r < 2 ^ 64) (hbuf : buf.length = maxBuffer)
    (hle : ∀ chunk ∈ chunks, chunk.length ≤ maxBuffer) :
    (∃ n o, bodyLoop cl r buf output (closed chunks n) = some (.ends o)) ↔
      ∃ k, cl ≤ u64 (r + (chunks.take k).flatten.length) := by
  have hcalls : ∀ n, (∃ o, bodyLoop cl r buf output (closed chunks n) = some (.ends o)) ↔
      ∃ k, cl ≤ u64 (r + (chunks.take k).flatten.length) := by
    intro n
    rw [bodyLoop_enough hr hbuf (length_of_mem_closed hle)]
    simp only [flatten_take_closed]
  exact ⟨fun ⟨n, h⟩ => (hcalls n).mp h, fun h => ⟨0, (hcalls 0).mpr h⟩⟩

end Body

/-! ## The loops -/

/-- **The loops end** when the peer closes exactly if it has sent a whole header before, and the
bytes that are asked for. -/
theorem loops_end_iff {headBuf bodyBuf output : List UInt8} {head body : List (List UInt8)}
    {cl r : ℕ} (hhead : headBuf.length = maxBuffer)
    (hheadSeg : ∀ chunk ∈ head, 0 < chunk.length ∧ chunk.length ≤ maxBuffer - 1)
    (hbody : bodyBuf.length = maxBuffer)
    (hbodySeg : ∀ chunk ∈ body, 0 < chunk.length ∧ chunk.length ≤ maxBuffer) (hr : r < 2 ^ 64) :
    ((∃ n res, recvHeader (recvInit headBuf) (closed head n) = some (.inr res)) ↔
        crlfcrlf <:+: cstr head.flatten) ∧
      ((∃ n o, bodyLoop cl r bodyBuf output (closed body n) = some (.ends o)) ↔
        ∃ k, cl ≤ u64 (r + (body.take k).flatten.length)) :=
  ⟨recvHeader_ends_iff hhead hheadSeg,
    bodyLoop_ends_iff hr hbody fun chunk hc => (hbodySeg chunk hc).2⟩

/-- An end of a header, and a byte where one is asked for. -/
theorem loops_end_iff_oneByte :
    (∃ n res, recvHeader (recvInit emptyBuf) (closed [crlfcrlf] n) = some (.inr res)) ∧
      ∃ n o, bodyLoop 1 0 emptyBuf [] (closed [[97]] n) = some (.ends o) := by
  have hhead : ∀ chunk ∈ [crlfcrlf], 0 < chunk.length ∧ chunk.length ≤ maxBuffer - 1 := by decide
  have hbody : ∀ chunk ∈ ([[97]] : List (List UInt8)), 0 < chunk.length ∧
      chunk.length ≤ maxBuffer := by decide
  obtain ⟨hheader, hfile⟩ :=
    loops_end_iff length_emptyBuf hhead length_emptyBuf hbody (by decide : 0 < 2 ^ 64)
  exact ⟨hheader.mpr (by decide), hfile.mpr ⟨1, by decide⟩⟩

/-- A peer that closes at once, and one that sends a byte of two. -/
theorem loops_go_on :
    (¬ ∃ n res, recvHeader (recvInit emptyBuf) (closed [] n) = some (.inr res)) ∧
      ¬ ∃ n o, bodyLoop 2 0 emptyBuf [] (closed [[97]] n) = some (.ends o) := by
  refine ⟨fun h => ?_, fun h => ?_⟩
  · have hin := (recvHeader_ends_iff length_emptyBuf (by decide)).mp h
    exact absurd hin (by decide)
  · obtain ⟨k, hk⟩ := (bodyLoop_ends_iff (by decide) length_emptyBuf (by decide)).mp h
    cases k with
    | zero => exact absurd hk (by decide)
    | succ k =>
      rw [List.take_succ_cons, List.take_nil] at hk
      exact absurd hk (by decide)

end NetworkingLearning.Http
