import NetworkingLearning.Http.Headers
import NetworkingLearning.Machine.Runs
import Mathlib.Tactic.Ring

/-!
# Requests (`http_client.c:226-358`, `http_server.c:143-198`)

`buildRequest` (`http_client.c:235-309`) takes an URL apart, `requestBytes` is what the client sends
for it (`generate_request`, `http_client.c:330-358`, with the length of `request_str_size`), and
`parseRequestHeader` what the server reads from that (`http_server.c:154-198`, with
`assign_struct_var`).

* A string has no zero in it; a pointer into one is a place. `strchrnul`, `strstr` and `strtok` are
  a place in a list, `find` and `token`. `strtok` goes on behind the separator that it has
  overwritten, which is what `token` leaves.
* The port is refused only above 65536 (`http_client.c:271`): the second test there is of `6 < 0`.
* `RequestLine` are the three words that the server reads. It looks at no field behind them.
* No string is `NULL` here: the server parses what `recv_header` has returned.

Results:
* `buildRequest_ok`: the parts of an URL that is accepted.
* `requestBytes_eq`: the length that is sent is that of the string.
* `isHeader_request_iff`, `parseRequestHeader_request_iff`: when the server sees the end of the
  request, and when it reads its first line as it is meant.
* `understood_iff`: the server understands the client exactly if there is no space and no `CRLF` in
  the path, and no `CRLFCRLF` in the line of the host.

Out of scope: `free_request`, `keepalive`, which nothing reads, and a `malloc` that fails.
-/

namespace NetworkingLearning.Http

open NetworkingLearning.Machine NetworkingLearning.Text

/-- The fields of `http_request` that the server reads. -/
structure RequestLine where
  method : List UInt8
  requestUri : List UInt8
  version : List UInt8
deriving DecidableEq

/-- `http_request`. -/
structure HttpRequest extends RequestLine where
  ua : List UInt8
  accept : List UInt8
  host : List UInt8
  port : List UInt8
  keepalive : ℤ
deriving DecidableEq

/-! ## The client -/

/-- `strchrnul`: the place of a symbol, or of the end. -/
def strchrnul (str : List UInt8) (c : UInt8) : ℕ := (find [c] str).getD str.length

/-- The bytes from one place to another. -/
def slice (str : List UInt8) (start stop : ℕ) : List UInt8 := (str.drop start).take (stop - start)

/-- The fields that `build_request` assigns. -/
def newRequest (path host port : List UInt8) : HttpRequest where
  method := ascii "GET"
  requestUri := path
  version := ascii "HTTP/1.1"
  ua := ascii "Wget/1.12 (linux-gnu)"
  accept := ascii "*/*"
  host := host
  port := port
  keepalive := 1

/-- `build_request`. -/
def buildRequest (input : List UInt8) : Except String HttpRequest :=
  let protocol := ascii "http://"
  if ¬ protocol <+: input then .error "Not an http protocol.\n"
  else
    let hostPtr := input.drop protocol.length
    let portPtr := strchrnul hostPtr 58
    let pathPtr := strchrnul hostPtr 47
    let endPtr := hostPtr.length
    if portPtr ≠ endPtr ∧ portPtr ≥ pathPtr then
      .error "[Error] File path cannot contain `column` signal.\n"
    else
      let path := if pathPtr = endPtr then ascii "/" else hostPtr.drop pathPtr
      if portPtr = endPtr then .ok (newRequest path (slice hostPtr 0 pathPtr) (ascii "80"))
      else
        let host := slice hostPtr 0 portPtr
        let port := slice hostPtr (portPtr + 1) pathPtr
        -- the test that was to find a negative port compares two constants
        if atoi port > 65536 ∨ 6 < 0 then .error "[Error] Invalid Port Number.\n"
        else .ok (newRequest path host port)

/-- `request_str_size`. -/
def requestStrSize (req : HttpRequest) : ℕ :=
  req.method.length + 1 + req.requestUri.length + 1 + req.version.length + 2 +
    12 + req.ua.length + 2 + 8 + req.accept.length + 2 + 6 + req.host.length + 1 +
    req.port.length + 2 + 22 + 4

/-- `generate_request`: the string, and the length that is returned. -/
def generateRequest (req : HttpRequest) : List UInt8 × ℕ :=
  ([req.method, ascii " ", req.requestUri, ascii " ", req.version, crlf,
    ascii "User-Agent: ", req.ua, crlf,
    ascii "Host: ", req.host, ascii ":", req.port, crlf,
    ascii "Accept: ", req.accept, crlf,
    ascii "Connection: Keep-Alive", crlf, crlf].flatten, requestStrSize req)

/-- What the client sends: so many bytes of memory in which there are zeros behind the string. -/
def requestBytes (req : HttpRequest) : List UInt8 :=
  let (request, requestLength) := generateRequest req
  (request ++ List.replicate (requestLength + 1 - request.length) 0).take requestLength

/-! ## The server -/

/-- `assign_struct_var`, with what `strtok` has left. -/
def assignStructVar (str : List UInt8) : Except String (List UInt8 × List UInt8) :=
  match token 32 str with
  | none => .error "[Error] Wrong Request Message(Method end).\n"
  | some r => .ok r

/-- `parse_request_header`. -/
def parseRequestHeader (requestStr : List UInt8) : Except String RequestLine :=
  if requestStr = [] then .error "[Error] NULL Request.\n"
  else match find crlf requestStr with
    | none => .error "[Error] Wrong Request Format.\n"
    | some headerPtr => do
      let (method, str) ← assignStructVar (requestStr.take headerPtr)
      let (requestUri, str) ← assignStructVar str
      let (version, _) ← assignStructVar str
      return ⟨method, requestUri, version⟩

/-! ## The parts of an URL -/

/-- What stands between the protocol and the path. -/
def authority (input : List UInt8) : List UInt8 :=
  (input.drop (ascii "http://").length).takeWhile (· != 47)

/-- The path of an URL. -/
def urlPath (input : List UInt8) : List UInt8 :=
  (input.drop (ascii "http://").length).dropWhile (· != 47)

/-- The path that is sent. -/
def sentPath (input : List UInt8) : List UInt8 :=
  if urlPath input = [] then ascii "/" else urlPath input

section Urls

variable {input str path host port : List UInt8} {req : HttpRequest} {c : UInt8}

theorem strchrnul_eq (str : List UInt8) (c : UInt8) :
    strchrnul str c = (str.takeWhile (· != c)).length := by
  induction str with
  | nil => rfl
  | cons x str ih =>
    by_cases hx : x = c
    · have hpre : [c] <+: x :: str := ⟨str, by rw [hx]; rfl⟩
      rw [strchrnul, find_at_start hpre, List.takeWhile_cons_of_neg (by simp [hx])]
      rfl
    · have hpre : ¬ [c] <+: x :: str := fun h => hx (List.cons_prefix_cons.mp h).1.symm
      rw [List.takeWhile_cons_of_pos (by simpa using hx), List.length_cons, ← ih]
      unfold strchrnul
      rw [find_cons hpre]
      cases find [c] str <;> rfl

theorem strchrnul_le (str : List UInt8) (c : UInt8) : strchrnul str c ≤ str.length := by
  rw [strchrnul_eq]
  exact (List.takeWhile_prefix _).length_le

@[simp] theorem take_strchrnul (str : List UInt8) (c : UInt8) :
    str.take (strchrnul str c) = str.takeWhile (· != c) := by
  have hsplit := List.takeWhile_append_dropWhile (l := str) (p := (· != c))
  calc str.take (strchrnul str c)
      = (str.takeWhile (· != c) ++ str.dropWhile (· != c)).take (strchrnul str c) := by rw [hsplit]
    _ = str.takeWhile (· != c) := List.take_left' (strchrnul_eq str c).symm

@[simp] theorem drop_strchrnul (str : List UInt8) (c : UInt8) :
    str.drop (strchrnul str c) = str.dropWhile (· != c) := by
  have hsplit := List.takeWhile_append_dropWhile (l := str) (p := (· != c))
  calc str.drop (strchrnul str c)
      = (str.takeWhile (· != c) ++ str.dropWhile (· != c)).drop (strchrnul str c) := by rw [hsplit]
    _ = str.dropWhile (· != c) := List.drop_left' (strchrnul_eq str c).symm

theorem strchrnul_eq_length_iff (str : List UInt8) (c : UInt8) :
    strchrnul str c = str.length ↔ str.dropWhile (· != c) = [] := by
  have hle := strchrnul_le str c
  rw [← drop_strchrnul, List.drop_eq_nil_iff]
  omega

/-- A symbol that is found before another one cuts what is before that. -/
theorem takeWhile_of_strchrnul_lt {d : UInt8} (h : strchrnul str c < strchrnul str d) :
    str.takeWhile (· != d) = slice str 0 (strchrnul str c) ++
      c :: slice str (strchrnul str c + 1) (strchrnul str d) := by
  have hle := strchrnul_le str d
  have hc : (str.drop (strchrnul str c)).head? = some c := by
    rw [drop_strchrnul]
    have hne : str.dropWhile (· != c) ≠ [] := by
      rw [← drop_strchrnul, Ne, List.drop_eq_nil_iff]
      omega
    have hhead := List.head_dropWhile_not (· != c) hne
    rw [List.head?_eq_some_head hne]
    simpa using hhead
  obtain ⟨rest, hrest⟩ := List.head?_eq_some_iff.mp hc
  have hdrop : str.drop (strchrnul str c + 1) = rest := by
    rw [← List.drop_drop, hrest, List.drop_one, List.tail_cons]
  have hsplit : str = str.take (strchrnul str c) ++ c :: rest := by
    rw [← hrest, List.take_append_drop]
  have hstop : strchrnul str d =
      strchrnul str c + (strchrnul str d - (strchrnul str c + 1) + 1) := by omega
  rw [← take_strchrnul]
  unfold slice
  rw [hdrop, List.drop_zero, Nat.sub_zero]
  conv_lhs => rw [hstop, List.take_add, hrest, List.take_succ_cons]

theorem sentPath_append (rest : List UInt8) : sentPath (ascii "http://" ++ rest) =
    if strchrnul rest 47 = rest.length then ascii "/" else rest.drop (strchrnul rest 47) := by
  rw [if_congr (strchrnul_eq_length_iff rest 47) rfl (drop_strchrnul rest 47)]
  unfold sentPath urlPath
  rw [List.drop_left]

/-- What `buildRequest` does behind the protocol. -/
theorem buildRequest_append (rest : List UInt8) : buildRequest (ascii "http://" ++ rest) =
    if strchrnul rest 58 ≠ rest.length ∧ strchrnul rest 58 ≥ strchrnul rest 47 then
      .error "[Error] File path cannot contain `column` signal.\n"
    else if strchrnul rest 58 = rest.length then
      .ok (newRequest (sentPath (ascii "http://" ++ rest)) (slice rest 0 (strchrnul rest 47))
        (ascii "80"))
    else if atoi (slice rest (strchrnul rest 58 + 1) (strchrnul rest 47)) > 65536 then
      .error "[Error] Invalid Port Number.\n"
    else .ok (newRequest (sentPath (ascii "http://" ++ rest))
      (slice rest 0 (strchrnul rest 58))
      (slice rest (strchrnul rest 58 + 1) (strchrnul rest 47))) := by
  have hconst : ∀ p : Prop, (p ∨ 6 < 0) ↔ p := fun p => or_iff_left (by decide)
  unfold buildRequest
  rw [if_neg (not_not.mpr ⟨rest, rfl⟩)]
  simp only [List.drop_left, sentPath_append, hconst]

theorem protocol_of_ok (h : buildRequest input = .ok req) :
    ∃ rest, ascii "http://" ++ rest = input := by
  by_contra hprotocol
  have hrefused : buildRequest input = .error "Not an http protocol.\n" := if_pos hprotocol
  rw [hrefused] at h
  cases h

/-- **The parts of an URL** that is accepted. -/
theorem buildRequest_ok (h : buildRequest input = .ok req) :
    ∃ host port, req = newRequest (sentPath input) host port ∧
      (58 ∉ authority input ∧ host = authority input ∧ port = ascii "80" ∨
        authority input = host ++ 58 :: port) := by
  obtain ⟨rest, rfl⟩ := protocol_of_ok h
  have hauthority : authority (ascii "http://" ++ rest) = rest.takeWhile (· != 47) := by
    rw [authority, List.drop_left]
  rw [buildRequest_append] at h
  rw [hauthority]
  split at h
  · nomatch h
  rename_i hcolon
  split at h
  · rename_i hport
    refine ⟨_, _, (Except.ok.inj h).symm, Or.inl ⟨?_, ?_, rfl⟩⟩
    · intro hmem
      have hnil := (strchrnul_eq_length_iff _ 58).mp hport
      have hne := List.dropWhile_eq_nil_iff.mp hnil 58 ((List.takeWhile_prefix _).subset hmem)
      exact absurd hne (by decide)
    · exact take_strchrnul _ 47
  · rename_i hport
    split at h
    · nomatch h
    · exact ⟨_, _, (Except.ok.inj h).symm, Or.inr (takeWhile_of_strchrnul_lt (by omega))⟩

end Urls

/-! ## The request -/

section Requests

variable {path host port : List UInt8}

/-- **The length** that is returned is that of the string. -/
theorem requestBytes_eq (req : HttpRequest) : requestBytes req = (generateRequest req).1 := by
  have hlen : (generateRequest req).1.length = (generateRequest req).2 := by
    have hspace : (ascii " ").length = 1 := by decide
    have hcrlf : crlf.length = 2 := by decide
    have hua : (ascii "User-Agent: ").length = 12 := by decide
    have hhost : (ascii "Host: ").length = 6 := by decide
    have hcolon : (ascii ":").length = 1 := by decide
    have haccept : (ascii "Accept: ").length = 8 := by decide
    have hconnection : (ascii "Connection: Keep-Alive").length = 22 := by decide
    simp only [generateRequest, requestStrSize, List.flatten_cons, List.flatten_nil,
      List.length_append, List.length_nil, hspace, hcrlf, hua, hhost, hcolon, haccept, hconnection]
    ring
  exact List.take_left' hlen

/-- The first line of a request for `path`. -/
def requestLine (path : List UInt8) : List UInt8 :=
  ascii "GET" ++ 32 :: (path ++ 32 :: ascii "HTTP/1.1")

/-- What stands between the path and the host. -/
def beforeHost : List UInt8 := ascii "HTTP/1.1\r\nUser-Agent: Wget/1.12 (linux-gnu)\r\nHost:"

/-- What follows the port, from the second letter of the next field to the end of the last. -/
def afterPort : List UInt8 := ascii "ccept: */*\r\nConnection: Keep-Alive"

/-- The string up to a place in its constant end, cut at symbols that are not in `CRLFCRLF`. -/
def requestUpTo (path host port tail : List UInt8) : List UInt8 :=
  ascii "GET" ++ 32 :: (path ++ 32 ::
    (beforeHost ++ 32 :: (host ++ 58 :: (port ++ crlf ++ 65 :: (afterPort ++ tail)))))

theorem requestBytes_newRequest (path host port : List UInt8) :
    requestBytes (newRequest path host port) = requestUpTo path host port crlfcrlf := by
  rw [requestBytes_eq, requestUpTo, List.append_assoc]
  rfl

theorem requestUpTo_append (path host port tail : List UInt8) :
    requestUpTo path host port tail = requestUpTo path host port [] ++ tail := by
  simp only [requestUpTo, List.append_assoc, List.cons_append, List.nil_append]

theorem infix_requestUpTo_iff {tail : List UInt8}
    (htail : ¬ crlfcrlf <:+: afterPort ++ tail) :
    crlfcrlf <:+: requestUpTo path host port tail ↔
      crlfcrlf <:+: path ∨ crlfcrlf <:+: host ∨ crlfcrlf <:+: port ++ crlf := by
  have hget : ¬ crlfcrlf <:+: ascii "GET" := by decide
  have hbefore : ¬ crlfcrlf <:+: beforeHost := by decide
  unfold requestUpTo
  rw [infix_append_cons_iff (by decide), infix_append_cons_iff (by decide),
    infix_append_cons_iff (by decide), infix_append_cons_iff (by decide),
    infix_append_cons_iff (by decide)]
  tauto

theorem zero_notMem_request (hpath : 0 ∉ path) (hhost : 0 ∉ host) (hport : 0 ∉ port) :
    0 ∉ requestBytes (newRequest path host port) := by
  rw [requestBytes_newRequest]
  have hget : 0 ∉ ascii "GET" := by decide
  have hbefore : 0 ∉ beforeHost := by decide
  have htail : 0 ∉ afterPort ++ crlfcrlf := by decide
  have hcrlf : 0 ∉ crlf := by decide
  simp only [requestUpTo, List.mem_append, List.mem_cons, not_or] at htail ⊢
  exact ⟨hget, by decide, hpath, by decide, hbefore, by decide, hhost, by decide,
    ⟨hport, hcrlf⟩, by decide, htail⟩

/-- **Where the request ends** for the server. -/
theorem isHeader_request_iff (hpath : 0 ∉ path) (hhost : 0 ∉ host) (hport : 0 ∉ port) :
    IsHeader (requestBytes (newRequest path host port)) ↔
      ¬ (crlfcrlf <:+: path ∨ crlfcrlf <:+: host ∨ crlfcrlf <:+: port ++ crlf) := by
  have hzero := zero_notMem_request hpath hhost hport
  rw [requestBytes_newRequest] at hzero ⊢
  have hlen : (requestUpTo path host port crlfcrlf).length - crlfcrlf.length =
      (requestUpTo path host port []).length := by
    rw [requestUpTo_append, List.length_append, Nat.add_sub_cancel]
  have hends : find crlfcrlf (requestUpTo path host port crlfcrlf) =
        some (requestUpTo path host port []).length ↔
      ¬ crlfcrlf <:+: requestUpTo path host port crlfcrlf.dropLast := by
    rw [requestUpTo_append path host port crlfcrlf,
      requestUpTo_append path host port crlfcrlf.dropLast, ← find_append_iff (by decide),
      List.append_nil]
  rw [infix_requestUpTo_iff (by decide), ← hlen] at hends
  exact ⟨fun h => hends.mp h.ends, fun h => ⟨hzero, hends.mpr h⟩⟩

theorem requestBytes_eq_requestLine (path host port : List UInt8) : ∃ rest,
    requestBytes (newRequest path host port) = requestLine path ++ (crlf ++ rest) := by
  rw [requestBytes_newRequest]
  refine ⟨ascii "User-Agent: Wget/1.12 (linux-gnu)\r\nHost:" ++ 32 :: (host ++ 58 ::
    (port ++ crlf ++ 65 :: (afterPort ++ crlfcrlf))), ?_⟩
  rw [requestLine, List.append_assoc, List.cons_append, List.append_assoc]
  rfl

theorem assignStructVar_ok {str w rest : List UInt8} (h : assignStructVar str = .ok (w, rest)) :
    32 ∉ w ∧ w <:+: str ∧ rest <:+ str := by
  unfold assignStructVar at h
  split at h
  · nomatch h
  · rename_i r htoken
    rw [Except.ok.inj h] at htoken
    exact token_eq_some htoken

theorem assignStructVar_append {w : List UInt8} (hw : w ≠ []) (hc : 32 ∉ w) (rest : List UInt8) :
    assignStructVar (w ++ 32 :: rest) = .ok (w, rest) := by
  rw [assignStructVar, token_append hw hc]

/-- **The first line of the request** is read as the client means it exactly if there is no space
and no `CRLF` in the path. -/
theorem parseRequestHeader_request_iff (hne : path ≠ []) :
    parseRequestHeader (requestBytes (newRequest path host port)) =
        .ok (newRequest path host port).toRequestLine ↔ 32 ∉ path ∧ ¬ crlf <:+: path := by
  obtain ⟨rest, hbytes⟩ := requestBytes_eq_requestLine path host port
  have hcrlf : crlf ≠ [] := by decide
  have hnil : requestLine path ++ (crlf ++ rest) ≠ [] :=
    List.append_ne_nil_of_right_ne_nil _ (List.append_ne_nil_of_left_ne_nil hcrlf _)
  rw [hbytes, parseRequestHeader, if_neg hnil]
  constructor
  · intro h
    cases hf : find crlf (requestLine path ++ (crlf ++ rest)) with
    | none => exact absurd (List.infix_append' _ _ _) (find_eq_none_iff.mp hf)
    | some k =>
      simp only [hf] at h
      obtain ⟨⟨method, str₁⟩, hmethod, h⟩ := bind_ok.mp h
      obtain ⟨⟨uri, str₂⟩, huri, h⟩ := bind_ok.mp h
      obtain ⟨⟨version, str₃⟩, -, h⟩ := bind_ok.mp h
      have hpath : uri = path := congrArg RequestLine.requestUri (Except.ok.inj h)
      obtain ⟨-, -, hsuf⟩ := assignStructVar_ok hmethod
      obtain ⟨hspace, hin, -⟩ := assignStructVar_ok huri
      -- the line ends before the first `CRLF`
      have hline := find_take hcrlf hf k
      rw [if_neg (by rw [show crlf.length = 2 by decide]; omega)] at hline
      rw [← hpath]
      exact ⟨hspace, fun hc =>
        find_eq_none_iff.mp hline ((hc.trans hin).trans hsuf.isInfix)⟩
  · rintro ⟨hspace, hc⟩
    have hline : find crlf (requestLine path ++ (crlf ++ rest)) =
        some (requestLine path).length := by
      refine (find_append_iff hcrlf).mpr ?_
      have hget : ¬ crlf <:+: ascii "GET" := by decide
      have hversion : ¬ crlf <:+: ascii "HTTP/1.1" ++ crlf.dropLast := by decide
      rw [requestLine, List.append_assoc, List.cons_append, List.append_assoc, List.cons_append,
        infix_append_cons_iff (by decide), infix_append_cons_iff (by decide)]
      tauto
    have hmethod : assignStructVar (requestLine path) =
        .ok (ascii "GET", path ++ 32 :: ascii "HTTP/1.1") :=
      assignStructVar_append (by decide) (by decide) _
    have huri : assignStructVar (path ++ 32 :: ascii "HTTP/1.1") = .ok (path, ascii "HTTP/1.1") :=
      assignStructVar_append hne hspace _
    have hversion : assignStructVar (ascii "HTTP/1.1") = .ok (ascii "HTTP/1.1", []) := by
      rw [assignStructVar, token_self (by decide) (by decide)]
    simp only [hline, List.take_left, hmethod, huri, hversion, bind, Except.bind]
    rfl

end Requests

/-! ## The two programs -/

/-- What an URL may have for its request to be understood: no space and no `CRLF` in the path, and
no `CRLFCRLF` before it, also not with the `CRLF` that follows a port. -/
structure Sendable (input : List UInt8) : Prop where
  space : 32 ∉ urlPath input
  path : ¬ crlf <:+: urlPath input
  authority : ¬ crlfcrlf <:+: authority input ++ if 58 ∈ authority input then crlf else []

section Programs

variable {input host port : List UInt8} {req : HttpRequest} {chunks : List (List UInt8)}

theorem zero_notMem_parts (hinput : 0 ∉ input) : 0 ∉ authority input ∧ 0 ∉ urlPath input := by
  have hdrop := (List.drop_suffix (ascii "http://").length input).subset
  refine ⟨fun h => hinput (hdrop ?_), fun h => hinput (hdrop ?_)⟩
  · exact (List.takeWhile_prefix _).subset h
  · exact (List.dropWhile_suffix _).subset h

theorem sentPath_ne_nil (input : List UInt8) : sentPath input ≠ [] := by
  unfold sentPath
  split
  · decide
  · assumption

theorem zero_notMem_sentPath (hinput : 0 ∉ input) : 0 ∉ sentPath input := by
  unfold sentPath
  split
  · decide
  · exact (zero_notMem_parts hinput).2

/-- The path that is sent has a space or a `CRLF` where that of the URL has one. -/
theorem sentPath_iff (input : List UInt8) : (32 ∉ sentPath input ∧ ¬ crlf <:+: sentPath input) ↔
    32 ∉ urlPath input ∧ ¬ crlf <:+: urlPath input := by
  unfold sentPath
  split
  · rename_i h
    rw [h]
    decide
  · rfl

/-- The line of the host has a `CRLFCRLF` where the URL has one before its path. -/
theorem sentHost_iff (h : 58 ∉ authority input ∧ host = authority input ∧ port = ascii "80" ∨
      authority input = host ++ 58 :: port) :
    (crlfcrlf <:+: host ∨ crlfcrlf <:+: port ++ crlf) ↔
      crlfcrlf <:+: authority input ++ if 58 ∈ authority input then crlf else [] := by
  rcases h with ⟨hcolon, rfl, rfl⟩ | h
  · have hport : ¬ crlfcrlf <:+: ascii "80" ++ crlf := by decide
    rw [if_neg hcolon, List.append_nil, or_iff_left hport]
  · have hcolon : 58 ∈ authority input := by
      rw [h]
      exact List.mem_append_right _ List.mem_cons_self
    rw [if_pos hcolon, h, List.append_assoc, List.cons_append, infix_append_cons_iff (by decide)]

/-- **The server understands the client** exactly if the URL is such, however the request is cut. -/
theorem understood_iff (hinput : 0 ∉ input) (hreq : buildRequest input = .ok req)
    (hstream : chunks.flatten = requestBytes req)
    (hseg : ∀ chunk ∈ chunks, 0 < chunk.length ∧ chunk.length ≤ maxBuffer - 1) :
    (∃ r, recvHeader (recvInit emptyBuf) chunks = some (.inr (r, [])) ∧
      r.responseHeader = requestBytes req ∧ r.contentReceived = 0 ∧
      parseRequestHeader r.responseHeader = .ok req.toRequestLine) ↔ Sendable input := by
  obtain ⟨host, port, rfl, hparts⟩ := buildRequest_ok hreq
  have hauthority := (zero_notMem_parts hinput).1
  have hzero : 0 ∉ host ∧ 0 ∉ port := by
    rcases hparts with ⟨-, rfl, rfl⟩ | h
    · exact ⟨hauthority, by decide⟩
    · rw [h] at hauthority
      simp only [List.mem_append, List.mem_cons, not_or] at hauthority
      exact ⟨hauthority.1, hauthority.2.2⟩
  have hbytes := zero_notMem_request (zero_notMem_sentPath hinput) hzero.1 hzero.2
  have hheader := isHeader_request_iff (zero_notMem_sentPath hinput) hzero.1 hzero.2
  have hends : crlfcrlf <:+: requestBytes (newRequest (sentPath input) host port) := by
    rw [requestBytes_newRequest, requestUpTo_append]
    exact List.infix_append_right
  have hline : parseRequestHeader (requestBytes (newRequest (sentPath input) host port)) =
      .ok (newRequest (sentPath input) host port).toRequestLine ↔ _ :=
    parseRequestHeader_request_iff (sentPath_ne_nil input)
  have hreceived := recvHeader_whole_iff hbytes hends hstream hseg length_emptyBuf
  rw [sentPath_iff] at hline
  rw [sentHost_iff hparts] at hheader
  have hsub : crlf <:+: crlfcrlf := by decide
  constructor
  · rintro ⟨r, hr, hresponse, hcontent, hparse⟩
    rw [hresponse] at hparse
    obtain ⟨hspace, hpath⟩ := hline.mp hparse
    have hnot := hheader.mp (hreceived.mp ⟨r, hr, hresponse, hcontent⟩)
    exact ⟨hspace, hpath, fun h => hnot (Or.inr h)⟩
  · rintro ⟨hspace, hpath, hhost⟩
    have hcrlf := ((sentPath_iff input).mpr ⟨hspace, hpath⟩).2
    have hnot := hheader.mpr (not_or.mpr ⟨fun h => hcrlf (hsub.trans h), hhost⟩)
    obtain ⟨r, hr, hresponse, hcontent⟩ := hreceived.mpr hnot
    exact ⟨r, hr, hresponse, hcontent, hresponse ▸ hline.mpr ⟨hspace, hpath⟩⟩

end Programs

/-- A request that arrives in two pieces. -/
theorem understood_iff_twoPieces :
    let bytes := requestBytes (newRequest (ascii "/i") (ascii "h") (ascii "8080"))
    ∃ r, recvHeader (recvInit emptyBuf) [bytes.take 30, bytes.drop 30] = some (.inr (r, [])) ∧
      r.responseHeader = bytes ∧ r.contentReceived = 0 ∧
      parseRequestHeader r.responseHeader =
        .ok ⟨ascii "GET", ascii "/i", ascii "HTTP/1.1"⟩ := by
  have hinput : 0 ∉ ascii "http://h:8080/i" := by decide
  have hreq : buildRequest (ascii "http://h:8080/i") =
      .ok (newRequest (ascii "/i") (ascii "h") (ascii "8080")) := by decide
  refine (understood_iff hinput hreq (by decide) (by decide)).mpr ⟨by decide, by decide, by decide⟩

/-- A space in the path ends it for the server, which takes the rest for the version. -/
theorem path_split : ¬ ∀ (input : List UInt8) (req : HttpRequest) (chunks : List (List UInt8)),
    0 ∉ input → buildRequest input = .ok req → chunks.flatten = requestBytes req →
    (∀ chunk ∈ chunks, 0 < chunk.length ∧ chunk.length ≤ maxBuffer - 1) →
    ∃ r, recvHeader (recvInit emptyBuf) chunks = some (.inr (r, [])) ∧
      r.responseHeader = requestBytes req ∧ r.contentReceived = 0 ∧
      parseRequestHeader r.responseHeader = .ok req.toRequestLine := by
  intro h
  have hreq : buildRequest (ascii "http://h/a b") =
      .ok (newRequest (ascii "/a b") (ascii "h") (ascii "80")) := by decide
  obtain ⟨r, -, hresponse, -, hparse⟩ := h _ _
    [requestBytes (newRequest (ascii "/a b") (ascii "h") (ascii "80"))]
    (by decide) hreq (by decide) (by decide)
  rw [hresponse] at hparse
  exact absurd hparse (by decide)

end NetworkingLearning.Http
