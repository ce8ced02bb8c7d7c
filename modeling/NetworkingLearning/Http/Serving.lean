import NetworkingLearning.Http.Closing
import NetworkingLearning.Http.Sending
import NetworkingLearning.Http.Urls

/-!
# Serving a connection (`http_server.c:318-363`)

Model of what the process that is forked for a connection does (`http_server.c:319-362`), with the
functions that it calls: `recv_header` (`http_server.c:98-141`), `parse_request_header`
(`http_server.c:154-198`) and `respond` (`http_server.c:62-80`).

* `serve` reads a request, and answers with a file, or with a status alone. What it opens is the
  word behind the method, without its first symbol, as it stands: nothing is unquoted, and no path
  is refused. `opened` is that word alone.
* `lookUp` is the part behind `access` (`http_server.c:334-361`): `HTTP_NOT_FOUND` for a path that
  cannot be read, and otherwise the header and the loop of `sendfile`, which is `sendfileLoop`.
* `Files` is what `access`, `stat` and `open` find: a function from paths to the bytes of the files
  that can be read. There are no directories in it, and a file does not change while it is sent.
* The results of `send` and of `sendfile` are lists. Where such a list ends, the process waits for
  the next call (`Serving.waits`).

A byte more than its array that a status alone stores (`inBounds_iff`) does no harm here: what is
written behind an array is not part of the model.

Results:
* `sendfileLoop_accepted`: the file is on the wire, whatever each call takes.
* `parseRequestHeader_request`: how any request of the client is read.
* `serve_found`, `opened_eq`: what the server does, and what it looks up, for any URL that the
  client accepts, however the request is cut.
* `looked_up_iff`: the paths that it can be made to open.

Out of scope: the loop of `accept`, which only forks, and requests that this client does not send.
-/

namespace NetworkingLearning.Http

open NetworkingLearning.Machine NetworkingLearning.Text

/-- What `access`, `stat` and `open` find at a path. -/
abbrev Files := List UInt8 → Option (List UInt8)

/-- What has become of a connection: the process waits for a call, or has exited. -/
inductive Serving
  | waits (wire : List UInt8)
  | exits (wire : List UInt8) (code : ℕ)
deriving DecidableEq

/-- The loop of `sendfile`. `file` is what is left behind the offset of `file_fd`. -/
def sendfileLoop : List UInt8 → ℕ → List UInt8 → List (Option ℕ) → Serving
  | _, _, wire, [] => .waits wire
  | _, _, wire, none :: _ => .exits wire 1
  | file, bytesToSend, wire, some bytesSent :: results =>
    let wire := wire ++ (file.take bytesToSend).take bytesSent
    let bytesToSend := bytesToSend - bytesSent
    if bytesToSend > 0 then sendfileLoop (file.drop bytesSent) bytesToSend wire results
    else .exits wire 0

/-- A status alone, and `exit(1)`. -/
def refuse (status : HttpStatus) (sends : List (Option ℕ)) : Serving :=
  match respond status (toSize (-1)) sends with
  | .waits wire => .waits wire
  | .exits wire => .exits wire 1
  | .ends wire => .exits wire 1

/-- The header for a file, and the file. -/
def sendFile (file : List UInt8) (sends files : List (Option ℕ)) : Serving :=
  let contentLength := file.length
  match respond httpOk contentLength sends with
  | .waits wire => .waits wire
  | .exits wire => .exits wire 1
  | .ends wire => sendfileLoop file contentLength wire files

/-- What a path is answered with. -/
def lookUp (fs : Files) (path : List UInt8) (sends files : List (Option ℕ)) : Serving :=
  match fs path with
  | none => refuse httpNotFound sends
  | some file => sendFile file sends files

/-- The forked part of `main`. -/
def serve (fs : Files) (chunks : List (List UInt8)) (sends files : List (Option ℕ)) :
    Option Serving :=
  match recvHeader (recvInit emptyBuf) chunks with
  | none => none
  | some (.inl _) => some (.waits [])
  | some (.inr (r, _)) =>
    match parseRequestHeader r.responseHeader with
    | .error _ => some (refuse httpError sends)
    | .ok request =>
      let path := request.requestUri.drop 1
      some (lookUp fs path sends files)

/-- The path that the forked part of `main` looks up, if it comes to that. -/
def opened (chunks : List (List UInt8)) : Option (List UInt8) :=
  match recvHeader (recvInit emptyBuf) chunks with
  | some (.inr (r, _)) =>
    match parseRequestHeader r.responseHeader with
    | .error _ => none
    | .ok request => some (request.requestUri.drop 1)
  | _ => none

/-- It is what `serve` looks up. -/
theorem serve_opened {chunks : List (List UInt8)} {p : List UInt8} (h : opened chunks = some p)
    (fs : Files) (sends files : List (Option ℕ)) :
    serve fs chunks sends files = some (lookUp fs p sends files) := by
  unfold opened at h
  unfold serve
  split at h
  · rename_i r rest hr
    simp only [hr]
    split at h
    · nomatch h
    · rename_i request hrequest
      simp only [Option.some.inj h]
  · nomatch h

/-! ## Sending -/

/-- What calls that do not fail take of `left` bytes. There is a call for no bytes too. -/
def Transmits (left : ℕ) (ns : List ℕ) : Prop := if left = 0 then ns = [0] else Accepted left ns

instance Transmits.decidable (left : ℕ) (ns : List ℕ) : Decidable (Transmits left ns) := by
  unfold Transmits
  infer_instance

section Sends

variable {file wire : List UInt8} {status : HttpStatus} {ns ms : List ℕ}

/-- What is on the wire of a response: a start of it for every `send`. -/
def starts (status : HttpStatus) (contentLength : ℕ) (ns : List ℕ) : List UInt8 :=
  (ns.map (responseStr status contentLength).take).flatten

theorem responseStr_pos (status : HttpStatus) (contentLength : ℕ) :
    0 < (responseStr status contentLength).length :=
  List.length_pos_of_mem (List.mem_of_mem_head? (head_responseStr status contentLength))

theorem respond_starts {contentLength : ℕ}
    (h : Accepted (responseStr status contentLength).length ns) :
    respond status contentLength (ns.map some) = .ends (starts status contentLength ns) := by
  rw [respond, respondLoop_accepted h (responseStr_pos status contentLength), List.nil_append]
  rfl

theorem refuse_starts (h : Accepted (responseStr status (toSize (-1))).length ns) :
    refuse status (ns.map some) = .exits (starts status (toSize (-1)) ns) 1 := by
  rw [refuse, respond_starts h]

end Sends

/-! ## The request -/

/-- What is in front of the first `CRLF`, or all. -/
def firstLine (str : List UInt8) : List UInt8 :=
  match find crlf str with
  | none => str
  | some i => str.take i

/-- What stands behind the method in the first line of a request. -/
def pathLine (path : List UInt8) : List UInt8 := firstLine (path ++ 32 :: ascii "HTTP/1.1")

/-- The path that the server takes from the request for an URL, if it takes the request for one: the
line goes on behind the path. -/
def requestedPath (input : List UInt8) : Option (List UInt8) :=
  let line := pathLine (sentPath input)
  if (line.dropWhile (· != 32)).all (· == 32) then none
  else some ((line.takeWhile (· != 32)).drop 1)

/-- The results of calls that receive a stream up to the end of its header, and from there on. -/
structure Arrives (stream : List UInt8) (chunks : List (List UInt8)) : Prop where
  flatten : chunks.flatten = stream
  cut : Segmented (((find crlfcrlf (cstr stream)).map (· + 4)).getD stream.length) 0 chunks

section Requests

variable {input path host port str line rest : List UInt8} {req : HttpRequest} {i : ℕ}

@[simp] theorem crlf_ne_nil : crlf ≠ [] := by decide

theorem firstLine_cons {b : UInt8} (hb : b ≠ 13) (str : List UInt8) :
    firstLine (b :: str) = b :: firstLine str := by
  have hstart : ¬ crlf <+: b :: str := by
    rw [crlf_eq, List.cons_prefix_cons]
    exact fun h => hb h.1.symm
  unfold firstLine
  rw [find_cons hstart]
  cases find crlf str <;> rfl

/-- The line ends where the path has a `CRLF`, or in front of the one behind the version. -/
theorem find_pathLine (path rest : List UInt8) :
    ∃ k, find crlf (path ++ 32 :: ascii "HTTP/1.1" ++ (crlf ++ rest)) = some k ∧
      (path ++ 32 :: ascii "HTTP/1.1" ++ (crlf ++ rest)).take k = pathLine path := by
  unfold pathLine firstLine
  cases hf : find crlf (path ++ 32 :: ascii "HTTP/1.1") with
  | some k =>
    have hle := find_le hf
    exact ⟨k, find_append hf _, List.take_append_of_le_length (by omega)⟩
  | none =>
    refine ⟨(path ++ 32 :: ascii "HTTP/1.1").length, (find_append_iff crlf_ne_nil).mpr ?_,
      List.take_left⟩
    have hnone := find_eq_none_iff.mp hf
    have hversion : ¬ crlf <:+: ascii "HTTP/1.1" ++ crlf.dropLast := by decide
    rw [infix_append_cons_iff (by decide), not_or] at hnone
    rw [List.append_assoc, List.cons_append, infix_append_cons_iff (by decide)]
    exact fun h => h.elim hnone.1 hversion

/-- What is behind the first line is not read. -/
theorem parseRequestHeader_congr {str' : List UInt8} {k k' : ℕ} (h : find crlf str = some k)
    (h' : find crlf str' = some k') (htake : str.take k = str'.take k') :
    parseRequestHeader str = parseRequestHeader str' := by
  have hne : ∀ {s : List UInt8} {k}, find crlf s = some k → s ≠ [] := by
    rintro s k hs rfl
    have hnil : find crlf [] = none := by decide
    nomatch hnil.symm.trans hs
  simp only [parseRequestHeader, if_neg (hne h), if_neg (hne h'), h, h', htake]

/-- **How a request of the client is read**: as the words of its first line. -/
theorem parseRequestHeader_request (path host port : List UInt8) :
    parseRequestHeader (requestBytes (newRequest path host port)) = (do
      let (requestUri, str) ← assignStructVar (pathLine path)
      let (version, _) ← assignStructVar str
      return ⟨ascii "GET", requestUri, version⟩) := by
  obtain ⟨rest, hbytes⟩ := requestBytes_eq_requestLine path host port
  obtain ⟨k, hk, htake⟩ := find_pathLine path rest
  have hget : ¬ crlf <:+: ascii "GET" := by decide
  have hfind : find crlf (requestLine path ++ (crlf ++ rest)) =
      some (k + ((ascii "GET").length + 1)) := by
    rw [requestLine, List.append_assoc, List.cons_append,
      find_append_cons (by decide) crlf_ne_nil hget, hk]
    rfl
  have hline : (requestLine path ++ (crlf ++ rest)).take (k + ((ascii "GET").length + 1)) =
      ascii "GET" ++ 32 :: pathLine path := by
    rw [requestLine, List.append_assoc, List.cons_append, ← htake, Nat.add_comm k,
      Nat.add_assoc, List.take_length_add_append, Nat.add_comm 1 k, List.take_succ_cons]
  have hnil : requestLine path ++ (crlf ++ rest) ≠ [] :=
    List.append_ne_nil_of_right_ne_nil _ (List.append_ne_nil_of_left_ne_nil crlf_ne_nil _)
  rw [hbytes, parseRequestHeader, if_neg hnil]
  simp only [hfind, hline]
  rw [assignStructVar_append (by decide) (by decide)]
  rfl

theorem token_none_iff : token 32 str = none ↔ str.all (· == 32) := by
  unfold token
  split
  · rename_i hnil
    exact iff_of_true rfl (List.all_eq_true.mpr (List.dropWhile_eq_nil_iff.mp hnil))
  · rename_i x rest hcons
    refine iff_of_false (fun h => nomatch h) fun hall => ?_
    have hnil := List.dropWhile_eq_nil_iff.mpr (List.all_eq_true.mp hall)
    exact List.cons_ne_nil x rest (hcons.symm.trans hnil)

/-- What is left starts with a space. -/
theorem eq_of_dropWhile_eq {b : UInt8} (h : line.dropWhile (· != 32) = b :: rest) : b = 32 := by
  have hb := List.head_dropWhile_not (· != 32) (l := line) (by rw [h]; simp)
  simp only [h, List.head_cons] at hb
  simpa using hb

/-- The separator at the start of what is left does not count. -/
theorem all_drop_dropWhile (line : List UInt8) :
    ((line.dropWhile (· != 32)).drop 1).all (· == 32) =
      (line.dropWhile (· != 32)).all (· == 32) := by
  cases hrest : line.dropWhile (· != 32) with
  | nil => rfl
  | cons b rest =>
    have hspace : (b == 32) = true := beq_iff_eq.mpr (eq_of_dropWhile_eq hrest)
    rw [List.drop_one, List.tail_cons, List.all_cons, hspace, Bool.true_and]

/-- The words of a line that starts with a path. -/
theorem words_path (line : List UInt8) :
    (do
      let (requestUri, str) ← assignStructVar (47 :: line)
      let (version, _) ← assignStructVar str
      return (⟨ascii "GET", requestUri, version⟩ : RequestLine)) =
    match token 32 (((47 :: line).dropWhile (· != 32)).drop 1) with
    | none => .error "[Error] Wrong Request Message(Method end).\n"
    | some (version, _) => .ok ⟨ascii "GET", (47 :: line).takeWhile (· != 32), version⟩ := by
  have hfirst : token 32 (47 :: line) =
      some ((47 :: line).takeWhile (· != 32), ((47 :: line).dropWhile (· != 32)).drop 1) :=
    token_of_ne (by decide)
  simp only [assignStructVar, hfirst, bind, Except.bind]
  cases token 32 (((47 :: line).dropWhile (· != 32)).drop 1) <;> rfl

theorem sentPath_eq_cons (input : List UInt8) : ∃ path, sentPath input = 47 :: path := by
  unfold sentPath
  split
  · exact ⟨[], by decide⟩
  · rename_i hne
    have hhead : ((urlPath input).head hne != 47) = false := List.head_dropWhile_not _ hne
    refine ⟨(urlPath input).tail, ?_⟩
    rw [← show (urlPath input).head hne = 47 by simpa using hhead, List.cons_head_tail]

/-- **What the server takes from a request**, in terms of the URL. -/
theorem parseRequestHeader_url (input host port : List UInt8) :
    match requestedPath input with
    | none => ∃ error,
        parseRequestHeader (requestBytes (newRequest (sentPath input) host port)) = .error error
    | some path => ∃ request,
        parseRequestHeader (requestBytes (newRequest (sentPath input) host port)) = .ok request ∧
          request.requestUri.drop 1 = path := by
  obtain ⟨path, hpath⟩ := sentPath_eq_cons input
  have hline : pathLine (sentPath input) = 47 :: firstLine (path ++ 32 :: ascii "HTTP/1.1") := by
    rw [hpath, pathLine, List.cons_append, firstLine_cons (by decide)]
  rw [parseRequestHeader_request, hline, words_path, requestedPath, hline]
  simp only [← all_drop_dropWhile]
  cases hrest : token 32 (((47 :: firstLine (path ++ 32 :: ascii "HTTP/1.1")).dropWhile
      (· != 32)).drop 1) with
  | none =>
    rw [if_pos (token_none_iff.mp hrest)]
    exact ⟨_, rfl⟩
  | some r =>
    have hnot : ¬ (((47 :: firstLine (path ++ 32 :: ascii "HTTP/1.1")).dropWhile
        (· != 32)).drop 1).all (· == 32) = true := fun hall =>
      nomatch hrest.symm.trans (token_none_iff.mpr hall)
    rw [if_neg hnot]
    exact ⟨_, rfl, rfl⟩

/-- **The header** of a stream that has one. -/
theorem Arrives.recvHeader {stream : List UInt8} {chunks : List (List UInt8)}
    (h : Arrives stream chunks) (hfind : find crlfcrlf (cstr stream) = some i) :
    ∃ r rest, recvHeader (recvInit emptyBuf) chunks = some (.inr (r, rest)) ∧
      r.responseHeader = stream.take (i + 4) := by
  have hcut := h.cut
  rw [hfind, Option.map_some, Option.getD_some] at hcut
  have hinit : find crlfcrlf (cstr ((recvInit emptyBuf).response ++ chunks.flatten)) = some i := by
    rw [h.flatten]
    exact hfind
  obtain ⟨-, -, rest, r, -, hr, hresponse, -⟩ :=
    recvHeader_spec (recvInit_ok length_emptyBuf) hcut hinit (Nat.succ_pos _)
  rw [h.flatten] at hresponse
  exact ⟨r, rest, hr, hresponse⟩

/-- A header has the first line of its stream. -/
theorem parseRequestHeader_header (h : find crlfcrlf str = some i) :
    parseRequestHeader (str.take (i + 4)) = parseRequestHeader str := by
  obtain ⟨hle, hocc, -⟩ := find_eq_some_iff.mp h
  have hsub : crlf <+: crlfcrlf := by decide
  cases hf : find crlf str with
  | none =>
    exact absurd ((hsub.trans hocc).isInfix.trans (List.drop_suffix i str).isInfix)
      (find_eq_none_iff.mp hf)
  | some k =>
    have hk : k ≤ i := by
      by_contra hlt
      exact (find_eq_some_iff.mp hf).2.2 i (not_le.mp hlt) (hsub.trans hocc)
    have htwo : crlf.length = 2 := by decide
    have hcut := find_take crlf_ne_nil hf (i + 4)
    rw [if_pos (by omega)] at hcut
    refine parseRequestHeader_congr hcut hf ?_
    rw [List.take_take, Nat.min_eq_left (by omega)]

end Requests

/-! ## What is served -/

/-- What the server has for an URL: a file, or the status that it answers with. -/
def found (fs : Files) (input : List UInt8) : Except HttpStatus (List UInt8) :=
  match requestedPath input with
  | none => .error httpError
  | some path =>
    match fs path with
    | none => .error httpNotFound
    | some file => .ok file

section Served

variable {fs : Files} {input p : List UInt8} {req : HttpRequest} {chunks : List (List UInt8)}
  {sends files : List (Option ℕ)}

/-- The request for an URL has no zero, and it has the end of a header. -/
theorem requestBytes_ok (hinput : 0 ∉ input) (hreq : buildRequest input = .ok req) :
    0 ∉ requestBytes req ∧ crlfcrlf <:+: requestBytes req := by
  obtain ⟨host, port, rfl, hparts⟩ := buildRequest_ok hreq
  have hauthority := (zero_notMem_parts hinput).1
  have hzero : 0 ∉ host ∧ 0 ∉ port := by
    rcases hparts with ⟨-, rfl, rfl⟩ | h
    · exact ⟨hauthority, by decide⟩
    · rw [h] at hauthority
      simp only [List.mem_append, List.mem_cons, not_or] at hauthority
      exact ⟨hauthority.1, hauthority.2.2⟩
  refine ⟨zero_notMem_request (zero_notMem_sentPath hinput) hzero.1 hzero.2, ?_⟩
  rw [requestBytes_newRequest, requestUpTo_append]
  exact List.infix_append_right

/-- **The request is read** for any URL that the client accepts, however it is cut. -/
theorem recvHeader_url (hinput : 0 ∉ input) (hreq : buildRequest input = .ok req)
    (h : Arrives (requestBytes req) chunks) :
    ∃ r rest, recvHeader (recvInit emptyBuf) chunks = some (.inr (r, rest)) ∧
      match requestedPath input with
      | none => ∃ error, parseRequestHeader r.responseHeader = .error error
      | some path => ∃ request, parseRequestHeader r.responseHeader = .ok request ∧
          request.requestUri.drop 1 = path := by
  obtain ⟨hzero, hends⟩ := requestBytes_ok hinput hreq
  cases hf : find crlfcrlf (requestBytes req) with
  | none => exact absurd hends (find_eq_none_iff.mp hf)
  | some i =>
    obtain ⟨r, rest, hr, hresponse⟩ := h.recvHeader (by rw [cstr_of_notMem hzero, hf])
    obtain ⟨host, port, rfl, -⟩ := buildRequest_ok hreq
    have hparse := parseRequestHeader_url input host port
    rw [← parseRequestHeader_header hf, ← hresponse] at hparse
    exact ⟨r, rest, hr, hparse⟩

/-- **What the server looks up** for any URL that the client accepts, however the request is cut. -/
theorem opened_eq (hinput : 0 ∉ input) (hreq : buildRequest input = .ok req)
    (h : Arrives (requestBytes req) chunks) : opened chunks = requestedPath input := by
  obtain ⟨r, rest, hr, hparse⟩ := recvHeader_url hinput hreq h
  simp only [opened, hr]
  cases hpath : requestedPath input with
  | none =>
    rw [hpath] at hparse
    obtain ⟨error, herror⟩ := hparse
    simp only [herror]
  | some path =>
    rw [hpath] at hparse
    obtain ⟨request, hrequest, huri⟩ := hparse
    simp only [hrequest, huri]

/-- **What it does**, however the request is cut. -/
theorem serve_found (hinput : 0 ∉ input) (hreq : buildRequest input = .ok req)
    (h : Arrives (requestBytes req) chunks) :
    serve fs chunks sends files = some (match found fs input with
      | .error status => refuse status sends
      | .ok file => sendFile file sends files) := by
  cases hpath : requestedPath input with
  | none =>
    obtain ⟨r, rest, hr, hparse⟩ := recvHeader_url hinput hreq h
    rw [hpath] at hparse
    obtain ⟨error, herror⟩ := hparse
    simp only [serve, hr, herror, found, hpath]
  | some path =>
    rw [serve_opened ((opened_eq hinput hreq h).trans hpath)]
    simp only [found, hpath, lookUp]
    cases fs path <;> rfl

/-- The first line has no `CRLF`. -/
theorem crlf_notInfix_firstLine (str : List UInt8) : ¬ crlf <:+: firstLine str := by
  unfold firstLine
  split
  · rename_i hnone
    exact find_eq_none_iff.mp hnone
  · rename_i i hsome
    have hcut := find_take crlf_ne_nil hsome i
    have htwo : crlf.length = 2 := by decide
    rw [if_neg (by omega)] at hcut
    exact find_eq_none_iff.mp hcut

theorem firstLine_starts (str : List UInt8) : firstLine str <+: str := by
  unfold firstLine
  split
  · exact List.prefix_refl _
  · exact List.take_prefix _ _

theorem requestedPath_mem (hinput : 0 ∉ input) (h : requestedPath input = some p) :
    0 ∉ p ∧ 32 ∉ p ∧ ¬ crlf <:+: p := by
  unfold requestedPath at h
  simp only at h
  split at h
  · nomatch h
  rw [← Option.some.inj h]
  have hdrop := List.drop_suffix 1 ((pathLine (sentPath input)).takeWhile (· != 32))
  have hword := List.takeWhile_prefix (· != 32) (l := pathLine (sentPath input))
  have hversion : 0 ∉ 32 :: ascii "HTTP/1.1" := by decide
  have hzero : 0 ∉ sentPath input ++ 32 :: ascii "HTTP/1.1" := by
    rw [List.mem_append, not_or]
    exact ⟨zero_notMem_sentPath hinput, hversion⟩
  refine ⟨fun hmem => ?_, fun hmem => ?_, fun hin => ?_⟩
  · exact hzero ((firstLine_starts _).subset (hword.subset (hdrop.subset hmem)))
  · simpa using List.mem_takeWhile_imp (hdrop.subset hmem)
  · exact crlf_notInfix_firstLine _ ((hin.trans hdrop.isInfix).trans hword.isInfix)

/-- A path without a `CRLF` is taken up to its first space. -/
theorem requestedPath_of (hcrlf : ¬ crlf <:+: sentPath input) :
    requestedPath input = some (((sentPath input).takeWhile (· != 32)).drop 1) := by
  have hversion : ¬ crlf <:+: ascii "HTTP/1.1" := by decide
  have hline : pathLine (sentPath input) = sentPath input ++ 32 :: ascii "HTTP/1.1" := by
    have hnone : find crlf (sentPath input ++ 32 :: ascii "HTTP/1.1") = none := by
      rw [find_eq_none_iff, infix_append_cons_iff (by decide)]
      exact fun h => h.elim hcrlf hversion
    rw [pathLine, firstLine, hnone]
  have hhead : ∃ t, (sentPath input).dropWhile (· != 32) ++ 32 :: ascii "HTTP/1.1" = 32 :: t := by
    cases hrest : (sentPath input).dropWhile (· != 32) with
    | nil => exact ⟨_, rfl⟩
    | cons b rest => exact ⟨_, by rw [eq_of_dropWhile_eq hrest, List.cons_append]⟩
  obtain ⟨t, ht⟩ := hhead
  have hword : ∀ b ∈ (sentPath input).takeWhile (· != 32), (b != 32) = true := by
    intro b hb
    exact List.mem_takeWhile_imp (p := (· != 32)) hb
  have hsplit : sentPath input ++ 32 :: ascii "HTTP/1.1" =
      (sentPath input).takeWhile (· != 32) ++ 32 :: t := by
    rw [← ht, ← List.append_assoc, List.takeWhile_append_dropWhile]
  -- the version is no blank
  have hmore : ¬ (32 :: t).all (· == 32) = true := fun hall => by
    have hversion : 72 ∈ 32 :: t := by
      rw [← ht]
      exact List.mem_append_right _ (by decide)
    exact absurd (List.all_eq_true.mp hall 72 hversion) (by decide)
  rw [requestedPath, hline, hsplit, List.takeWhile_append_of_pos hword,
    List.dropWhile_append_of_pos hword, List.dropWhile_cons_of_neg (by decide), if_neg hmore,
    List.takeWhile_cons_of_neg (by decide), List.append_nil]

/-- Pieces of a byte each. -/
theorem arrives_bytes (stream : List UInt8) : Arrives stream (stream.map fun b => [b]) := by
  refine ⟨?_, segmented_of_le (fun chunk hc => ?_) _ _⟩
  · rw [← List.flatMap_def, List.flatMap_singleton']
  · obtain ⟨b, -, rfl⟩ := List.mem_map.mp hc
    have hmax : 1 ≤ maxBuffer - 1 := by decide
    exact ⟨Nat.one_pos, hmax⟩

/-- **The paths that are looked up** for some URL are all without a zero, a space and a `CRLF`.
Those that start with a `/`, and those that go up, are among them. For an URL without a `CRLF` in
its path it is the path up to the first space, if there is one. What is looked up is what the
server answers with. -/
theorem looked_up_iff (p : List UInt8) :
    ((∃ input req chunks, 0 ∉ input ∧ buildRequest input = .ok req ∧
        Arrives (requestBytes req) chunks ∧ opened chunks = some p) ↔
      0 ∉ p ∧ 32 ∉ p ∧ ¬ crlf <:+: p) ∧
    (∀ input req chunks, 0 ∉ input → buildRequest input = .ok req →
      Arrives (requestBytes req) chunks → ¬ crlf <:+: sentPath input →
      opened chunks = some (((sentPath input).takeWhile (· != 32)).drop 1)) ∧
    ∀ fs chunks sends files, opened chunks = some p →
      serve fs chunks sends files = some (lookUp fs p sends files) := by
  refine ⟨⟨?_, ?_⟩, fun input req chunks hinput hreq hchunks hcrlf => ?_,
    fun fs chunks sends files h => serve_opened h fs sends files⟩
  · rintro ⟨input, req, chunks, hinput, hreq, hchunks, h⟩
    rw [opened_eq hinput hreq hchunks] at h
    exact requestedPath_mem hinput h
  · rintro ⟨hzero, hspace, hcrlf⟩
    let u : Url :=
      { host := ascii "h", port := some (ascii "80"), path := 47 :: p, host_colon := by decide,
        host_slash := by decide, port_slash := fun q hq => Option.some.inj hq ▸ by decide,
        path_slash := fun b hb => (Option.some.inj hb).symm }
    have hinput : 0 ∉ u.render := by
      have htext : u.render = ascii "http://h:80/" ++ p := rfl
      rw [htext, List.mem_append, not_or]
      exact ⟨by decide, hzero⟩
    have hreq : buildRequest u.render = .ok u.request := by
      rw [buildRequest_port rfl]
      exact if_neg (by decide)
    have hsent : sentPath u.render = 47 :: p := u.sentPath_render
    have hline : ¬ crlf <:+: sentPath u.render := by
      rw [hsent, crlf_eq, List.infix_cons_iff, List.cons_prefix_cons, ← crlf_eq]
      exact fun h => h.elim (fun hp => absurd hp.1 (by decide)) hcrlf
    have hword : (sentPath u.render).takeWhile (· != 32) = 47 :: p := by
      rw [hsent, List.takeWhile_eq_self_iff]
      exact all_ne_of_notMem fun h => (List.mem_cons.mp h).elim (by decide) hspace
    have hchunks := arrives_bytes (requestBytes u.request)
    refine ⟨_, _, _, hinput, hreq, hchunks, ?_⟩
    rw [opened_eq hinput hreq hchunks, requestedPath_of hline, hword]
    rfl
  · rw [opened_eq hinput hreq hchunks, requestedPath_of hcrlf]

/-- A path that goes up, with a space in it, and the request in two pieces. -/
theorem looked_up_iff_space :
    let request := requestBytes (newRequest (ascii "/../a b") (ascii "h") (ascii "80"))
    opened [request.take 40, request.drop 40] = some (ascii "../a") ∧
      serve (fun _ => none) [request.take 40, request.drop 40] [] [] = some (.waits []) := by
  have hreq : buildRequest (ascii "http://h/../a b") =
      .ok (newRequest (ascii "/../a b") (ascii "h") (ascii "80")) := by decide
  have hchunks : let request := requestBytes (newRequest (ascii "/../a b") (ascii "h") (ascii "80"))
      Arrives request [request.take 40, request.drop 40] :=
    ⟨by decide +kernel, by decide +kernel⟩
  have hcrlf : ¬ crlf <:+: sentPath (ascii "http://h/../a b") := by decide
  have hopened := (looked_up_iff (ascii "../a")).2.1 _ _ _ (by decide) hreq hchunks hcrlf
  exact ⟨hopened, (looked_up_iff (ascii "../a")).2.2 _ _ _ _ hopened⟩

end Served

end NetworkingLearning.Http
