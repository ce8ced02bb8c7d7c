import NetworkingLearning.Http.Responses

/-!
# Sending a response (`http_server.c:62-80`)

Model of `respond`. A `send` may take less than it is given. The loop (`http_server.c:72-79`) counts
what is left to send, but gives every `send` the start of the response: `response_str` is never
moved.

* The results of `send` are given as the list of what each call has taken, `none` if it has failed.
* `send` takes no more than it is given, so that what is left does not wrap (`Accepted`).
* `Sending` is what has become of it: the process waits for a call, has exited, or goes on.
* A failure is `-1` of a `size_t`, and so is the `content_length` of a status without a file.

Results:
* `respondLoop_accepted`: what is on the wire are starts of the response, one after another.
* `respond_iff`: that is the response exactly if each of them stands at its own place too. If the
  response has one end of a header, this leaves a single `send`.
-/

namespace NetworkingLearning.Http

open NetworkingLearning.Machine NetworkingLearning.Text

/-- What has become of a response: it waits for `send`, the server has exited, or it is sent. -/
inductive Sending
  | waits (wire : List UInt8)
  | exits (wire : List UInt8)
  | ends (wire : List UInt8)
deriving DecidableEq

/-- The loop of `respond`. -/
def respondLoop (responseStr : List UInt8) : ℕ → List UInt8 → List (Option ℕ) → Sending
  | _, wire, [] => .waits wire
  | _, wire, none :: _ => .exits wire
  | bytesToSend, wire, some bytesSent :: results =>
    let wire := wire ++ (responseStr.take bytesToSend).take bytesSent
    let bytesToSend := bytesToSend - bytesSent
    if bytesToSend > 0 then respondLoop responseStr bytesToSend wire results else .ends wire

/-- The `response_str` of `respond`. -/
def responseStr (status : HttpStatus) (contentLength : ℕ) : List UInt8 :=
  generateResponse (newRep status contentLength)

/-- `respond`. -/
def respond (status : HttpStatus) (contentLength : ℕ) (results : List (Option ℕ)) : Sending :=
  let bytesToSend := (responseStr status contentLength).length
  respondLoop (responseStr status contentLength) bytesToSend [] results

/-- What calls of `send` take of `left` bytes, until there are none left. -/
def Accepted : ℕ → List ℕ → Prop
  | left, [] => left = 0
  | left, n :: ns => 0 < n ∧ n ≤ left ∧ Accepted (left - n) ns

instance Accepted.decidable : ∀ left ns, Decidable (Accepted left ns)
  | left, [] => inferInstanceAs (Decidable (left = 0))
  | left, n :: ns =>
    haveI := Accepted.decidable (left - n) ns
    inferInstanceAs (Decidable (0 < n ∧ n ≤ left ∧ Accepted (left - n) ns))

/-- The starts of `s` that are sent from `p` on are also what stands there. -/
def Repeats (s : List UInt8) : ℕ → List ℕ → Prop
  | _, [] => True
  | p, n :: ns => (s.drop p).take n = s.take n ∧ Repeats s (p + n) ns

/-! ## The loop -/

section Loop

variable {s wire : List UInt8} {left p n : ℕ} {ns : List ℕ}

/-- **What is on the wire**: a start of the response for every `send`. -/
theorem respondLoop_accepted (hacc : Accepted left ns) (hpos : 0 < left) :
    respondLoop s left wire (ns.map some) = .ends (wire ++ (ns.map s.take).flatten) := by
  induction ns generalizing left wire with
  | nil => exact absurd hacc hpos.ne'
  | cons n ns ih =>
    obtain ⟨-, hle, hacc⟩ := hacc
    rw [List.map_cons, respondLoop, List.take_take, Nat.min_eq_left hle, List.map_cons,
      List.flatten_cons, ← List.append_assoc]
    rcases Nat.eq_zero_or_pos (left - n) with hzero | hpos
    · rw [if_neg (by omega)]
      cases ns with
      | nil => rw [List.map_nil, List.flatten_nil, List.append_nil]
      | cons m ns =>
        obtain ⟨hm, hle, -⟩ := hacc
        omega
    · rw [if_pos hpos]
      exact ih hacc hpos

/-- **The starts are the rest of the response** exactly if each stands at its place. -/
theorem repeats_iff (hacc : Accepted left ns) (hlen : p + left = s.length) :
    (ns.map s.take).flatten = s.drop p ↔ Repeats s p ns := by
  induction ns generalizing left p with
  | nil =>
    have hend : s.drop p = [] := List.drop_eq_nil_of_le (by
      rw [← hlen, show left = 0 from hacc]
      exact le_rfl)
    exact iff_of_true hend.symm trivial
  | cons n ns ih =>
    obtain ⟨-, hle, hacc⟩ := hacc
    have hsplit : s.drop p = (s.drop p).take n ++ s.drop (p + n) := by
      rw [← List.drop_drop, List.take_append_drop]
    rw [List.map_cons, List.flatten_cons, Repeats, ← ih hacc (by omega)]
    constructor
    · intro h
      rw [hsplit] at h
      have hlength : (s.take n).length = ((s.drop p).take n).length := by
        rw [List.length_take, List.length_take, List.length_drop]
        omega
      exact ⟨(List.append_inj h hlength).1.symm, (List.append_inj h hlength).2⟩
    · rintro ⟨hstart, hrest⟩
      rw [hrest, ← hstart, ← hsplit]

/-- The last start. -/
theorem Repeats.last (hrep : Repeats s p ns) (hacc : Accepted left ns) (hpos : 0 < left)
    (hlen : p + left = s.length) :
    ∃ q, p ≤ q ∧ q < s.length ∧ s.drop q = s.take (s.length - q) := by
  induction ns generalizing left p with
  | nil => exact absurd hacc hpos.ne'
  | cons n ns ih =>
    obtain ⟨hn, hle, hacc⟩ := hacc
    obtain ⟨hstart, hrep⟩ := hrep
    rcases Nat.eq_zero_or_pos (left - n) with hzero | hmore
    · have hlast : n = s.length - p := by omega
      refine ⟨p, le_rfl, by omega, ?_⟩
      rw [← hlast, ← hstart, List.take_of_length_le (by rw [List.length_drop]; omega)]
    · obtain ⟨q, hq, hlt, hdrop⟩ := ih hrep hacc hmore (by omega)
      exact ⟨q, by omega, hlt, hdrop⟩

end Loop

/-! ## The responses of the server -/

section Responses

variable {s : List UInt8} {q n : ℕ} {ns : List ℕ} {status : HttpStatus} {contentLength : ℕ}

/-- A response that starts with `H` and has one end of a header, its own, does not end as it
starts. -/
theorem drop_ne_take (hends : find crlfcrlf s = some (s.length - 4)) (hstart : s.head? = some 72)
    (hq : 0 < q) (hlt : q < s.length) : s.drop q ≠ s.take (s.length - q) := by
  intro hborder
  have hfour := length_crlfcrlf
  have hle := find_le hends
  have hcut := find_shortest hends
  rw [hfour, Nat.sub_add_cancel (by omega), List.take_length] at hcut
  have hsuf : s.drop q <:+ s := List.drop_suffix q s
  have hlen : (s.drop q).length = s.length - q := List.length_drop
  rcases Nat.lt_or_ge (s.drop q).length crlfcrlf.length with hshort | hlong
  · -- the last start is an end of `CRLFCRLF`, and has no `H`
    have hhead : (s.drop q).head? = some 72 := by
      rw [hborder, List.head?_take, if_neg (by omega), hstart]
    have hmem := List.mem_of_mem_head? hhead
    exact absurd ((List.suffix_of_suffix_length_le hsuf hcut.ends hshort.le).subset hmem)
      (by decide)
  · -- the last start ends with `CRLFCRLF`, and is shorter than the response
    have hend : crlfcrlf <:+ s.take (s.length - q) :=
      hborder ▸ List.suffix_of_suffix_length_le hcut.ends hsuf hlong
    have hwhole := (hcut.least _ (List.take_prefix _ _) hend).length_le
    rw [List.length_take] at hwhole
    omega

theorem accepted_one (hacc : Accepted n ns) : ns.length = 1 ↔ ns = [n] := by
  constructor
  · intro hone
    obtain ⟨m, rfl⟩ := List.length_eq_one_iff.mp hone
    obtain ⟨-, hle, hzero⟩ := hacc
    have hzero : n - m = 0 := hzero
    rw [show m = n by omega]
  · rintro rfl
    rfl

/-- **With one end of a header** there is a single `send`. -/
theorem repeats_iff_one (hends : find crlfcrlf s = some (s.length - 4))
    (hstart : s.head? = some 72) (hacc : Accepted s.length ns) (hpos : 0 < s.length) :
    Repeats s 0 ns ↔ ns.length = 1 := by
  rw [accepted_one hacc]
  constructor
  · intro hrep
    cases ns with
    | nil => exact absurd hacc hpos.ne'
    | cons n ns =>
      obtain ⟨hn, hle, hacc⟩ := hacc
      rcases Nat.eq_zero_or_pos (s.length - n) with hzero | hmore
      · cases ns with
        | nil => rw [show n = s.length by omega]
        | cons m ns =>
          obtain ⟨hm, hle, -⟩ := hacc
          omega
      · obtain ⟨q, hq, hlt, hborder⟩ := hrep.2.last hacc hmore (by omega)
        exact absurd hborder (drop_ne_take hends hstart (by omega) hlt)
  · rintro rfl
    exact ⟨by rw [List.drop_zero], trivial⟩

theorem head_responseStr (status : HttpStatus) (contentLength : ℕ) :
    (responseStr status contentLength).head? = some 72 := by
  unfold responseStr generateResponse
  split <;> rfl

/-- **`respond` puts the response on the wire** exactly if every `send` takes what stands at its
place too. If the response has one end of a header, its own, this is a single `send`. -/
theorem respond_iff (hacc : Accepted (responseStr status contentLength).length ns) :
    (respond status contentLength (ns.map some) = .ends (responseStr status contentLength) ↔
      Repeats (responseStr status contentLength) 0 ns) ∧
    (find crlfcrlf (responseStr status contentLength) =
        some ((responseStr status contentLength).length - 4) →
      (respond status contentLength (ns.map some) = .ends (responseStr status contentLength) ↔
        ns.length = 1)) := by
  have hstart := head_responseStr status contentLength
  have hpos : 0 < (responseStr status contentLength).length :=
    List.length_pos_of_mem (List.mem_of_mem_head? hstart)
  have hsent : respond status contentLength (ns.map some) =
      .ends (responseStr status contentLength) ↔
        Repeats (responseStr status contentLength) 0 ns := by
    rw [respond, respondLoop_accepted hacc hpos, ← repeats_iff hacc (Nat.zero_add _),
      List.drop_zero, List.nil_append, Sending.ends.injEq]
  exact ⟨hsent, fun hends => hsent.trans (repeats_iff_one hends hstart hacc hpos)⟩

end Responses

/-- There is one line feed behind the line of a response with a file, before that of its end. -/
theorem crlfcrlf_notInfix_field (v : ℤ) :
    ¬ crlfcrlf <:+: ascii "Content-Length: " ++ printInt v ++ [13] ++ 10 :: [13] := by
  intro h
  have htwo : crlfcrlf.count 10 = 2 := by decide
  have hle := h.sublist.count_le 10
  have hnone : (ascii "Content-Length: " ++ printInt v ++ [13]).count 10 = 0 :=
    List.count_eq_zero.mpr (lf_notMem_field v)
  rw [List.count_append, hnone, htwo] at hle
  exact absurd hle (by decide)

theorem find_responseStr_httpOk (contentLength : ℕ) :
    find crlfcrlf (responseStr httpOk contentLength) =
      some ((responseStr httpOk contentLength).length - 4) := by
  obtain ⟨v, hv⟩ : ∃ v, responseStr httpOk contentLength =
      (ascii "HTTP/1.1 200 OK\r\n" ++ (ascii "Content-Length: " ++ printInt v)) ++
        (crlfcrlf ++ []) := by
    refine ⟨toInt (newRep httpOk contentLength).cl, ?_⟩
    rw [responseStr, generateResponse_withLength (by exact List.prefix_refl _)]
    simp only [List.append_nil, List.append_assoc]
    rfl
  have hlen : (responseStr httpOk contentLength).length - 4 =
      (ascii "HTTP/1.1 200 OK\r\n" ++ (ascii "Content-Length: " ++ printInt v)).length := by
    rw [hv, List.length_append, List.append_nil, length_crlfcrlf]
    exact Nat.add_sub_cancel _ _
  rw [hlen, hv, find_append_iff (by decide)]
  intro h
  have hcut : ascii "HTTP/1.1 200 OK\r\n" ++ (ascii "Content-Length: " ++ printInt v) ++
      crlfcrlf.dropLast = ascii "HTTP/1.1 200 OK\r\n" ++
        67 :: (ascii "ontent-Length: " ++ printInt v ++ [13] ++ 10 :: [13]) := by
    simp only [List.append_assoc]
    rfl
  rw [hcut] at h
  rcases (infix_append_cons_iff (by decide)).mp h with h | h
  · exact absurd h (by decide)
  · exact crlfcrlf_notInfix_field v (List.infix_cons h)

/-- **The responses of the program** have one end of a header. -/
theorem find_responseStr {status : HttpStatus} (h : status ∈ [httpOk, httpError, httpNotFound])
    (contentLength : ℕ) : find crlfcrlf (responseStr status contentLength) =
      some ((responseStr status contentLength).length - 4) := by
  simp only [List.mem_cons, List.not_mem_nil, or_false] at h
  rcases h with rfl | rfl | rfl
  · exact find_responseStr_httpOk contentLength
  · exact (by decide : find crlfcrlf (ascii "HTTP/1.1 400 Bad Request\r\n\r\n") = some 24)
  · exact (by decide : find crlfcrlf (ascii "HTTP/1.1 404 NOT FOUND\r\n\r\n") = some 22)

/-- All of it at once. -/
theorem respond_iff_notFound : respond httpNotFound (toSize (-1)) [some 26] =
    .ends (responseStr httpNotFound (toSize (-1))) := by
  have hacc : Accepted (responseStr httpNotFound (toSize (-1))).length [26] := by decide
  exact ((respond_iff hacc).2 (find_responseStr (by simp) _)).mpr rfl

/-- After a byte its start is sent again, and its last byte is not. -/
theorem start_again : ¬ ∀ (status : HttpStatus) (contentLength : ℕ) (ns : List ℕ),
    Accepted (responseStr status contentLength).length ns →
    respond status contentLength (ns.map some) = .ends (responseStr status contentLength) := by
  intro h
  exact absurd (h httpNotFound (toSize (-1)) [1, 25] (by decide)) (by decide)

end NetworkingLearning.Http
