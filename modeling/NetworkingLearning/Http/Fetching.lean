import NetworkingLearning.Http.Building
import NetworkingLearning.Http.Serving
import Mathlib.Data.List.Flatten

/-!
# Fetching a file (`http_client.c:106-224`, `http_server.c:318-363`)

`fetch` is the client once it is connected: its request (`http_client.c:167-182`), the header and
the file. A `Connection` is what the calls of both programs have come to, and its two ends are run
on that: what either end receives are pieces of what the other has put on the wire
(`Connection.Carries`).

This is where the two programs meet, and where what is right of each of them alone is not enough:
the server's `respond` may put its header on the wire more than once, and the client takes the first
header for all of it.

* Nothing is closed, and no call fails. When a list of results ends, the process waits.

Results:
* `download_header`: what is left of a download once its header has come.
* `fetched_iff`: for any URL for which the server has a file the client gets that exactly if the
  header has been sent by one call, and the size is an `int`.
* `refused`: without a file the client fails exactly if the status has been sent by one call.
  Otherwise it waits for a header that does not come.

Out of scope: `getaddrinfo` and the set-up of the connection (`http_client.c:127-164`).
-/

namespace NetworkingLearning.Http

open NetworkingLearning.Machine NetworkingLearning.Text

/-- The loop that sends the request. -/
def requestLoop (requestStr : List UInt8) (requestLength : ℕ) :
    ℕ → List UInt8 → List (Option ℕ) → Sending
  | _, wire, [] => .waits wire
  | _, wire, none :: _ => .exits wire
  | bytesSent, wire, some newlySent :: results =>
    let wire := wire ++
      ((requestStr.drop bytesSent).take (requestLength - bytesSent)).take newlySent
    let bytesSent := bytesSent + newlySent
    if requestLength > bytesSent then requestLoop requestStr requestLength bytesSent wire results
    else .ends wire

/-- `main`, with a connection: what is on the wire, and what has become of it. -/
def fetch (input : List UInt8) (sends : List (Option ℕ)) (chunks : List (List UInt8)) :
    Option (List UInt8 × Download) :=
  match buildRequest input with
  | .error _ => some ([], .fails "Error parsing request.\n")
  | .ok req =>
    match requestLoop (requestBytes req) (generateRequest req).2 0 [] sends with
    | .waits wire => some (wire, .waits [])
    | .exits wire => some (wire, .fails "Error sending request.\n")
    | .ends wire => (download chunks).map fun d => (wire, d)

/-- What the calls of both programs have come to, none of which has failed. -/
structure Connection where
  requestSent : List ℕ
  request : List (List UInt8)
  headerSent : List ℕ
  fileSent : List ℕ
  response : List (List UInt8)

def Connection.server (c : Connection) (fs : Files) : Option Serving :=
  serve fs c.request (c.headerSent.map some) (c.fileSent.map some)

def Connection.client (c : Connection) (input : List UInt8) : Option (List UInt8 × Download) :=
  fetch input (c.requestSent.map some) c.response

/-- What either program has sent arrives. -/
structure Connection.Carries (c : Connection) (fs : Files) (request : List UInt8) : Prop where
  sent : Accepted request.length c.requestSent
  request : Arrives request c.request
  response : ∀ wire code, c.server fs = some (.exits wire code) → Arrives wire c.response

/-! ## The client -/

section Requests

variable {request wire : List UInt8} {sent : ℕ} {ns : List ℕ} {req : HttpRequest}

theorem requestLoop_accepted (hacc : Accepted (request.length - sent) ns)
    (hlt : sent < request.length) :
    requestLoop request request.length sent wire (ns.map some) =
      .ends (wire ++ request.drop sent) := by
  induction ns generalizing sent wire with
  | nil => exact absurd hacc (by rw [Accepted]; omega)
  | cons n ns ih =>
    obtain ⟨-, hle, hacc⟩ := hacc
    have hsplit : (request.drop sent).take n ++ request.drop (sent + n) = request.drop sent := by
      rw [← List.drop_drop, List.take_append_drop]
    rw [List.map_cons, requestLoop, List.take_take, Nat.min_eq_left hle]
    rw [Nat.sub_sub] at hacc
    rcases Nat.lt_or_ge (sent + n) request.length with hmore | hdone
    · rw [if_pos hmore, ih hacc hmore, List.append_assoc, hsplit]
    · rw [List.drop_eq_nil_of_le hdone, List.append_nil] at hsplit
      rw [if_neg (not_lt.mpr hdone), hsplit]

@[simp] theorem length_requestBytes (req : HttpRequest) :
    (requestBytes req).length = (generateRequest req).2 := by
  simp only [requestBytes, List.length_take, List.length_append, List.length_replicate]
  omega

/-- **The request is on the wire**, whatever each call takes. -/
theorem fetch_eq {input : List UInt8} {chunks : List (List UInt8)}
    (hreq : buildRequest input = .ok req) (hacc : Accepted (requestBytes req).length ns) :
    fetch input (ns.map some) chunks =
      (download chunks).map fun d => (requestBytes req, d) := by
  have hpos : 0 < (requestBytes req).length := by
    obtain ⟨host, port, rfl, -⟩ := buildRequest_ok hreq
    obtain ⟨rest, hrest⟩ := requestBytes_eq_requestLine (sentPath input) host port
    rw [hrest, requestLine, List.length_append, List.length_append]
    exact Nat.lt_of_lt_of_le (by decide : 0 < (ascii "GET").length) (by omega)
  have hloop : requestLoop (requestBytes req) (requestBytes req).length 0 [] (ns.map some) = _ :=
    requestLoop_accepted (by rwa [Nat.sub_zero]) hpos
  rw [List.drop_zero, List.nil_append] at hloop
  simp only [fetch, hreq, ← length_requestBytes, hloop]

end Requests

/-! ## A download -/

section Downloads

variable {stream buf output o : List UInt8} {chunks : List (List UInt8)} {n r cl i : ℕ}

/-- Before the end of the header every call asks for a byte less. -/
theorem Segmented.le_of_length (h : Segmented n r chunks) (hlen : r + chunks.flatten.length ≤ n) :
    ∀ chunk ∈ chunks, chunk.length ≤ maxBuffer - 1 := by
  induction chunks generalizing r with
  | nil => simp
  | cons chunk chunks ih =>
    obtain ⟨hpos, hle, hrest⟩ := h
    rw [List.flatten_cons, List.length_append] at hlen
    rw [if_pos (by omega)] at hle
    intro c hc
    rcases List.mem_cons.mp hc with rfl | hc
    · exact hle
    · exact ih hrest (by omega) c hc

/-- **Without a header** the client waits. -/
theorem download_waits (h : Arrives stream chunks) (hnone : find crlfcrlf (cstr stream) = none) :
    download chunks = some (.waits []) := by
  obtain ⟨hflat, hcut⟩ := h
  rw [hnone, Option.map_none, Option.getD_none] at hcut
  have hle := hcut.le_of_length (by rw [hflat, Nat.zero_add])
  have hinit : ¬ crlfcrlf <:+: cstr ((recvInit emptyBuf).response ++ chunks.flatten) := by
    rw [hflat]
    exact find_eq_none_iff.mp hnone
  obtain ⟨s, hs⟩ := recvHeader_waits (recvInit_ok length_emptyBuf) hle hinit
  simp only [download, hs]

/-- **With a header** what else has come with it is the start of the output. -/
theorem download_header (h : Arrives stream chunks)
    (hfind : find crlfcrlf (cstr stream) = some i) :
    ∃ buf output rest, buf.length = maxBuffer ∧ output.length < maxBuffer ∧
      (∀ chunk ∈ rest, chunk.length ≤ maxBuffer) ∧
      output ++ rest.flatten = stream.drop (i + 4) ∧
      (∀ error, parseResponseHeader (stream.take (i + 4)) = .error error →
        download chunks = some (.fails "Error parsing response.\n")) ∧
      ∀ response, parseResponseHeader (stream.take (i + 4)) = .ok response →
        download chunks = bodyLoop response.cl output.length buf output rest := by
  obtain ⟨hflat, hcut⟩ := h
  rw [hfind, Option.map_some, Option.getD_some] at hcut
  have hinit : find crlfcrlf (cstr ((recvInit emptyBuf).response ++ chunks.flatten)) = some i := by
    rw [hflat]
    exact hfind
  have hresponse₀ : (recvInit emptyBuf).response = [] := rfl
  obtain ⟨pre, chunk, rest, r, rfl, hr, hresponse, hpre, hend, hcontent, hbuf, htake⟩ :=
    recvHeader_spec (recvInit_ok length_emptyBuf) hcut hinit (Nat.succ_pos _)
  rw [hresponse₀, List.nil_append] at hresponse hpre hend hcontent htake
  rw [hflat] at hresponse
  have hle : ∀ c ∈ pre ++ chunk :: rest, c.length ≤ maxBuffer := hcut.le_maxBuffer
  have hchunk := hle chunk (by simp)
  have hmax : 0 < maxBuffer := by decide
  have hlen : ((pre.flatten ++ chunk).drop (i + 4)).length = r.contentReceived := by
    rw [hcontent, List.length_drop]
  have houtput : (if r.contentReceived ≠ 0 then r.buf.take r.contentReceived else []) =
      (pre.flatten ++ chunk).drop (i + 4) := by
    rw [← htake]
    split
    · rfl
    · rename_i hzero
      rw [not_not.mp hzero, List.take_zero]
  refine ⟨r.buf, (pre.flatten ++ chunk).drop (i + 4), rest, hbuf, ?_,
    fun c hc => hle c (by simp [hc]), ?_, fun error herror => ?_, fun response hok => ?_⟩
  · rw [List.length_append] at hcontent
    omega
  · rw [← List.drop_append_of_le_length hend, List.append_assoc, ← List.flatten_cons,
      ← List.flatten_append, hflat]
  · simp only [download, hr, hresponse, herror]
  · simp only [download, hr, hresponse, hok, houtput, hlen]

end Downloads

/-! ## The starts of a response -/

section Starts

variable {s : List UInt8} {left n contentLength : ℕ} {ns : List ℕ} {status : HttpStatus}

/-- Of several calls none has taken all. -/
theorem Accepted.lt (h : Accepted left ns) (hlen : ns.length ≠ 1) :
    ∀ n ∈ ns, 0 < n ∧ n < left := by
  induction ns generalizing left with
  | nil => simp
  | cons m ns ih =>
    obtain ⟨hm, hle, hacc⟩ := h
    cases ns with
    | nil => exact absurd rfl hlen
    | cons k ns =>
      have hk := hacc.1
      have hkle := hacc.2.1
      intro n hn
      rcases List.mem_cons.mp hn with rfl | hn
      · exact ⟨hm, by omega⟩
      · by_cases hone : (k :: ns).length = 1
        · obtain rfl := List.length_eq_zero_iff.mp (Nat.succ.inj hone)
          rw [List.mem_singleton.mp hn]
          exact ⟨hk, by omega⟩
        · obtain ⟨hpos, hlt⟩ := ih hacc hone n hn
          exact ⟨hpos, by omega⟩

/-- **Starts that are not whole** have no end of a header, and neither have several in a row. -/
theorem crlfcrlf_notInfix_starts (hends : find crlfcrlf s = some (s.length - 4))
    (hstart : s.head? = some 72) (hns : ∀ n ∈ ns, 0 < n ∧ n < s.length) :
    ¬ crlfcrlf <:+: (ns.map s.take).flatten := by
  obtain ⟨t, rfl⟩ := List.head?_eq_some_iff.mp hstart
  induction ns with
  | nil => exact (by decide : ¬ crlfcrlf <:+: [])
  | cons n ns ih =>
    have hrest := ih fun m hm => hns m (List.mem_cons_of_mem _ hm)
    have hfour := length_crlfcrlf
    have hle := find_le hends
    have hcut := find_take (by decide : crlfcrlf ≠ []) hends n
    have hlt := (hns n List.mem_cons_self).2
    rw [if_neg (by omega), find_eq_none_iff] at hcut
    rw [List.map_cons, List.flatten_cons]
    cases ns with
    | nil => rwa [List.map_nil, List.flatten_nil, List.append_nil]
    | cons m ns =>
      obtain ⟨k, rfl⟩ := Nat.exists_eq_add_of_lt (hns m (by simp)).1
      rw [Nat.zero_add, List.map_cons, List.flatten_cons, List.take_succ_cons,
        List.cons_append] at hrest ⊢
      rw [infix_append_cons_iff (by decide)]
      exact fun h => h.elim hcut fun hin => hrest (List.infix_cons hin)

end Starts

/-! ## The two programs -/

section Programs

variable {file stream : List UInt8} {chunks : List (List UInt8)} {ns : List ℕ}
  {status : HttpStatus}

theorem zero_notMem_responseStr (h : status ∈ [httpOk, httpError, httpNotFound])
    (contentLength : ℕ) : 0 ∉ responseStr status contentLength := by
  simp only [List.mem_cons, List.not_mem_nil, or_false] at h
  rcases h with rfl | rfl | rfl
  · exact zero_notMem_generateResponse (by exact (by decide : 0 ∉ ascii "HTTP/1.1"))
      (by exact (by decide : 0 ∉ ascii "200")) (by exact (by decide : 0 ∉ ascii "OK"))
      (by exact List.prefix_refl _)
  · exact (by decide : 0 ∉ ascii "HTTP/1.1 400 Bad Request\r\n\r\n")
  · exact (by decide : 0 ∉ ascii "HTTP/1.1 404 NOT FOUND\r\n\r\n")

/-- The header of a response of the server is all of it. -/
theorem find_response (h : status ∈ [httpOk, httpError, httpNotFound]) (contentLength : ℕ)
    (file : List UInt8) : ∃ i, i + 4 = (responseStr status contentLength).length ∧
      find crlfcrlf (cstr (responseStr status contentLength ++ file)) = some i := by
  have hends := find_responseStr h contentLength
  have hle := find_le hends
  have hfour := length_crlfcrlf
  refine ⟨(responseStr status contentLength).length - 4, by omega, ?_⟩
  rw [cstr_append (zero_notMem_responseStr h contentLength)]
  exact find_append hends _

/-- One call has sent all of the response. -/
theorem starts_one {contentLength : ℕ}
    (hacc : Accepted (responseStr status contentLength).length ns) (hone : ns.length = 1) :
    starts status contentLength ns = responseStr status contentLength := by
  rw [(accepted_one hacc).mp hone, starts, List.map_singleton, List.flatten_singleton,
    List.take_length]

/-- **A status alone** is an error for the client, if it is sent at once. Otherwise its header does
not end. -/
theorem download_status (hstatus : status ∈ [httpError, httpNotFound])
    (hacc : Accepted (responseStr status (toSize (-1))).length ns)
    (h : Arrives (starts status (toSize (-1)) ns) chunks) :
    download chunks = some (if ns.length = 1 then .fails "Error parsing response.\n"
      else .waits []) := by
  have hmem : status ∈ [httpOk, httpError, httpNotFound] := List.mem_cons_of_mem _ hstatus
  split
  · rename_i hone
    have hwhole : starts status (toSize (-1)) ns = responseStr status (toSize (-1)) ++ [] := by
      rw [starts_one hacc hone, List.append_nil]
    obtain ⟨i, hi, hfind⟩ := find_response hmem (toSize (-1)) []
    rw [← hwhole] at hfind
    obtain ⟨-, -, -, -, -, -, -, herror, -⟩ := download_header h hfind
    refine herror "[Error] No Content-Length.\n" ?_
    rw [hwhole, hi, List.take_left]
    simp only [List.mem_cons, List.not_mem_nil, or_false] at hstatus
    rcases hstatus with rfl | rfl <;> rfl
  · rename_i hlen
    have hnot := crlfcrlf_notInfix_starts (find_responseStr hmem _) (head_responseStr _ _)
      (hacc.lt hlen)
    refine download_waits h (find_eq_none_iff.mpr fun hin => hnot ?_)
    exact hin.trans (List.takeWhile_prefix _).isInfix

variable {fs : Files} {input : List UInt8} {req : HttpRequest} {c : Connection}

theorem found_error (h : found fs input = .error status) : status ∈ [httpError, httpNotFound] := by
  unfold found at h
  split at h
  · cases h
    simp
  · split at h
    · cases h
      simp
    · cases h

/-- **The client gets nothing** for an URL for which the server has no file, and it fails exactly if
the status has been sent by one call. -/
theorem refused (hinput : 0 ∉ input) (hreq : buildRequest input = .ok req)
    (hstatus : found fs input = .error status)
    (hheader : Accepted (responseStr status (toSize (-1))).length c.headerSent)
    (hc : c.Carries fs (requestBytes req)) :
    (∃ wire, c.server fs = some (.exits wire 1)) ∧
      c.client input = some (requestBytes req, if c.headerSent.length = 1 then
        .fails "Error parsing response.\n" else .waits []) := by
  have hserver : c.server fs =
      some (.exits (starts status (toSize (-1)) c.headerSent) 1) := by
    rw [Connection.server, serve_found hinput hreq hc.request, hstatus]
    exact congrArg some (refuse_starts hheader)
  refine ⟨⟨_, hserver⟩, ?_⟩
  rw [Connection.client, fetch_eq hreq hc.sent,
    download_status (found_error hstatus) hheader (hc.response _ _ hserver), Option.map_some]

end Programs

/-- No file, and a status of which the first byte has been sent alone. -/
theorem refused_twoSends :
    let request := requestBytes (newRequest (ascii "/i") (ascii "h") (ascii "80"))
    let c : Connection :=
      { requestSent := [103], request := [request], headerSent := [1, 25], fileSent := [],
        response := [ascii "HHTTP/1.1 404 NOT FOUND\r\n\r"] }
    c.client (ascii "http://h/i") = some (request, .waits []) := by
  intro request c
  have hreq : buildRequest (ascii "http://h/i") =
      .ok (newRequest (ascii "/i") (ascii "h") (ascii "80")) := by decide
  have hserver : c.server (fun _ => none) =
      some (.exits (ascii "HHTTP/1.1 404 NOT FOUND\r\n\r") 1) := by decide +kernel
  have hc : c.Carries (fun _ => none) request := by
    refine ⟨by decide +kernel, ⟨by decide +kernel, by decide +kernel⟩, fun wire code h => ?_⟩
    rw [hserver, Option.some.injEq, Serving.exits.injEq] at h
    rw [← h.1]
    exact ⟨by decide +kernel, by decide +kernel⟩
  exact (refused (by decide) hreq rfl (by decide) hc).2

end NetworkingLearning.Http
