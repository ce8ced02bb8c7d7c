import NetworkingLearning.Http.Requests

/-!
# URLs (`http_client.c:234-309`)

What `build_request` accepts. An `Url` is a host, a port and a path that can be told apart in the
text they give (`Url.render`); `Url.request` is what the program is to make of it. The fields of the
structure say what keeps the parts apart.

* The host ends before the first `:` or `/`, and the port before the first `/`. So every text behind
  `http://` is that of an `Url` (`exists_render`), and its port is any text without a `/`.
* The colon is searched for in the whole rest of the text (`http_client.c:243`). If no port is
  given, the first one may stand in the path, and the URL is refused (`http_client.c:247-250`).
* The port is read with `atoi`, which takes what is no number for `0` and keeps 32 bits. What it
  returns is compared, but what is kept is the text.
* `ValidPort` says what a port should be: the digits of a number up to `65535`, as a comment has it
  (`http_client.c:252`).

Results:
* `buildRequest_noPort`, `buildRequest_port`: what becomes of an `Url`.
* `buildRequest_grammar`: nothing of the text is lost, and every `Url` with a valid port, or without
  one and without a `:` in its path, is accepted.
* `default_port_iff`: leaving out the port means `80` exactly if there is no `:` in the path.
* `valid_port_iff`: when only a valid port is accepted.
-/

namespace NetworkingLearning.Http

open NetworkingLearning.Machine NetworkingLearning.Text

/-- The parts of an URL. -/
structure Url where
  host : List UInt8
  port : Option (List UInt8)
  path : List UInt8
  host_colon : 58 ∉ host
  host_slash : 47 ∉ host
  port_slash : ∀ p ∈ port, 47 ∉ p
  path_slash : ∀ b ∈ path.head?, b = 47

/-- The port with the colon in front of it. -/
def Url.portText (u : Url) : List UInt8 :=
  match u.port with
  | none => []
  | some p => 58 :: p

/-- The text of an URL. -/
def Url.render (u : Url) : List UInt8 := ascii "http://" ++ (u.host ++ (u.portText ++ u.path))

/-- The request for an URL. -/
def Url.request (u : Url) : HttpRequest :=
  newRequest (if u.path = [] then ascii "/" else u.path) u.host (u.port.getD (ascii "80"))

/-- A non-empty decimal number. -/
structure IsNumber (p : List UInt8) : Prop where
  ne_nil : p ≠ []
  digits : ∀ b ∈ p, isDigit b

/-- A decimal number that is a port. -/
structure ValidPort (p : List UInt8) : Prop extends IsNumber p where
  le : value p ≤ 65535

/-- Both fail, or both give a request for the same host, port and path. -/
def SameOutcome : Except String HttpRequest → Except String HttpRequest → Prop
  | .ok r, .ok r' => r.host = r'.host ∧ r.port = r'.port ∧ r.requestUri = r'.requestUri
  | .error _, .error _ => True
  | _, _ => False

section Places

variable {xs : List UInt8} {c : UInt8}

@[simp] theorem strchrnul_cons_self (xs : List UInt8) (c : UInt8) : strchrnul (c :: xs) c = 0 := by
  rw [strchrnul_eq, List.takeWhile_cons_of_neg (by simp)]
  rfl

/-- A symbol is found behind what does not have it. -/
theorem strchrnul_append (h : c ∉ xs) (ys : List UInt8) :
    strchrnul (xs ++ ys) c = xs.length + strchrnul ys c := by
  rw [strchrnul_eq, strchrnul_eq, List.takeWhile_append_of_pos (all_ne_of_notMem h),
    List.length_append]

theorem strchrnul_of_notMem (h : c ∉ xs) : strchrnul xs c = xs.length := by
  have := strchrnul_append h []
  rwa [List.append_nil] at this

theorem strchrnul_lt (h : c ∈ xs) : strchrnul xs c < xs.length := by
  refine lt_of_le_of_ne (strchrnul_le xs c) fun heq => ?_
  have hnil := (strchrnul_eq_length_iff xs c).mp heq
  have hne := List.dropWhile_eq_nil_iff.mp hnil c h
  exact absurd hne (by simp)

@[simp] theorem slice_left (xs ys : List UInt8) : slice (xs ++ ys) 0 xs.length = xs := by
  rw [slice, List.drop_zero, Nat.sub_zero, List.take_left]

theorem strchrnul_path (h : ∀ b ∈ xs.head?, b = 47) : strchrnul xs 47 = 0 := by
  cases xs with
  | nil => rfl
  | cons b xs =>
    rw [h b rfl]
    exact strchrnul_cons_self xs 47

end Places

section Grammar

variable {input : List UInt8} {req : HttpRequest}

/-- Where the path starts. -/
theorem Url.strchrnul_slash (u : Url) : strchrnul (u.host ++ (u.portText ++ u.path)) 47 =
    u.host.length + u.portText.length := by
  have hport : 47 ∉ u.portText := by
    unfold Url.portText
    split
    · exact List.not_mem_nil
    · rename_i p hp
      rw [List.mem_cons, not_or]
      exact ⟨by decide, u.port_slash p hp⟩
  rw [strchrnul_append u.host_slash, strchrnul_append hport, strchrnul_path u.path_slash,
    Nat.add_zero]

@[simp] theorem Url.urlPath_render (u : Url) : urlPath u.render = u.path := by
  unfold urlPath Url.render
  rw [List.drop_left, ← drop_strchrnul, u.strchrnul_slash, ← List.append_assoc,
    List.drop_left' List.length_append]

/-- The path that is sent. -/
theorem Url.sentPath_render (u : Url) :
    sentPath u.render = if u.path = [] then ascii "/" else u.path := by
  rw [sentPath, u.urlPath_render]

/-- An URL without a port. -/
theorem buildRequest_noPort {u : Url} (hport : u.port = none) : buildRequest u.render =
    if 58 ∈ u.path then .error "[Error] File path cannot contain `column` signal.\n"
    else .ok u.request := by
  have htext : u.portText = [] := by rw [Url.portText, hport]
  have hslash := u.strchrnul_slash
  have hcolon := strchrnul_append u.host_colon (u.portText ++ u.path)
  have hsent := u.sentPath_render
  unfold Url.render at hsent ⊢
  rw [buildRequest_append, hsent, hslash, hcolon, htext]
  simp only [List.nil_append, List.length_nil, Nat.add_zero, List.length_append]
  by_cases hmem : 58 ∈ u.path
  · have hlt := strchrnul_lt hmem
    rw [if_pos ⟨by omega, by omega⟩, if_pos hmem]
  · have heq := strchrnul_of_notMem hmem
    rw [heq, if_neg (fun h => h.1 rfl), if_pos rfl, if_neg hmem, slice_left, Url.request, hport,
      Option.getD_none]

/-- An URL with a port. -/
theorem buildRequest_port {u : Url} {p : List UInt8} (hport : u.port = some p) :
    buildRequest u.render =
      if atoi p > 65536 then .error "[Error] Invalid Port Number.\n" else .ok u.request := by
  have htext : u.portText = 58 :: p := by rw [Url.portText, hport]
  have hslash := u.strchrnul_slash
  have hcolon := strchrnul_append u.host_colon (u.portText ++ u.path)
  have hsent := u.sentPath_render
  have hslice : slice (u.host ++ 58 :: (p ++ u.path)) (u.host.length + 1)
      (u.host.length + (p.length + 1)) = p := by
    rw [slice, ← List.drop_drop, List.drop_left, List.drop_one, List.tail_cons]
    exact List.take_left' (by omega)
  unfold Url.render at hsent ⊢
  rw [buildRequest_append, hsent, hslash, hcolon, htext]
  simp only [List.cons_append, strchrnul_cons_self, List.length_append, List.length_cons,
    Nat.add_zero, hslice, slice_left]
  rw [if_neg (by omega), if_neg (by omega), Url.request, hport, Option.getD_some]

/-- Every text behind the protocol is that of an URL. -/
theorem exists_render (rest : List UInt8) : ∃ u : Url, u.render = ascii "http://" ++ rest := by
  obtain ⟨authority, path, rfl, hslash, hpath⟩ : ∃ authority path, rest = authority ++ path ∧
      47 ∉ authority ∧ ∀ b ∈ path.head?, b = 47 := by
    by_cases h : 47 ∈ rest
    · obtain ⟨authority, path, rfl, hslash⟩ := List.eq_append_cons_of_mem h
      exact ⟨authority, 47 :: path, rfl, hslash, fun b hb => (Option.some.inj hb).symm⟩
    · exact ⟨rest, [], (List.append_nil rest).symm, h, fun b hb => absurd hb (by simp)⟩
  by_cases h : 58 ∈ authority
  · obtain ⟨host, port, rfl, hcolon⟩ := List.eq_append_cons_of_mem h
    simp only [List.mem_append, List.mem_cons, not_or] at hslash
    obtain ⟨hhost, -, hport⟩ := hslash
    refine ⟨⟨host, some port, path, hcolon, hhost, fun p hp => ?_, hpath⟩, ?_⟩
    · exact Option.some.inj hp ▸ hport
    · simp only [Url.render, Url.portText, List.append_assoc, List.cons_append]
  · exact ⟨⟨authority, none, path, h, hslash, fun p hp => absurd hp (by simp), hpath⟩, rfl⟩

/-- What is accepted is an URL, and the request is that for it. -/
theorem exists_url (h : buildRequest input = .ok req) :
    ∃ u : Url, u.render = input ∧ u.request = req := by
  obtain ⟨rest, rfl⟩ := protocol_of_ok h
  obtain ⟨u, hu⟩ := exists_render rest
  refine ⟨u, hu, ?_⟩
  rw [← hu] at h
  cases hport : u.port with
  | none =>
    rw [buildRequest_noPort hport] at h
    split at h
    · cases h
    · exact Except.ok.inj h
  | some p =>
    rw [buildRequest_port hport] at h
    split at h
    · cases h
    · exact Except.ok.inj h

/-- **No part of an URL is lost**, and those that are meant are accepted. -/
theorem buildRequest_grammar :
    (∀ input req, buildRequest input = .ok req → ∃ u : Url, u.render = input ∧ u.request = req) ∧
      ∀ u : Url, (∀ p ∈ u.port, ValidPort p) → (u.port = none → 58 ∉ u.path) →
        buildRequest u.render = .ok u.request := by
  refine ⟨fun input req h => exists_url h, fun u hvalid hcolon => ?_⟩
  cases hport : u.port with
  | none => rw [buildRequest_noPort hport, if_neg (hcolon hport)]
  | some p =>
    obtain ⟨hnumber, hle⟩ := hvalid p hport
    have hatoi := atoi_digits hnumber.ne_nil hnumber.digits (by omega)
    rw [buildRequest_port hport, hatoi, if_neg (by omega)]

end Grammar

/-- An URL of each kind. -/
theorem buildRequest_grammar_examples :
    buildRequest (ascii "http://h:8080/a:b") =
        .ok (newRequest (ascii "/a:b") (ascii "h") (ascii "8080")) ∧
      buildRequest (ascii "http://h") = .ok (newRequest (ascii "/") (ascii "h") (ascii "80")) := by
  refine ⟨?_, ?_⟩
  · refine buildRequest_grammar.2 ⟨ascii "h", some (ascii "8080"), ascii "/a:b", by decide,
      by decide, fun p hp => ?_, fun b hb => ?_⟩ (fun p hp => ?_) (fun h => by cases h)
    · exact Option.some.inj hp ▸ by decide
    · exact (Option.some.inj hb).symm
    · obtain rfl := Option.some.inj hp
      exact ⟨⟨by decide, List.all_eq_true.mp (by decide)⟩, by decide⟩
  · refine buildRequest_grammar.2 ⟨ascii "h", none, [], by decide, by decide, ?_, ?_⟩ ?_ ?_
    · rintro p hp
      cases hp
    · rintro b hb
      cases hb
    · rintro p hp
      cases hp
    · exact fun _ => List.not_mem_nil

section Ports

variable {host path : List UInt8}

/-- **Leaving out the port means `80`** exactly if there is no colon in the path. -/
theorem default_port_iff (hcolon : 58 ∉ host) (hslash : 47 ∉ host)
    (hpath : ∀ b ∈ path.head?, b = 47) :
    SameOutcome (buildRequest (ascii "http://" ++ (host ++ path)))
        (buildRequest (ascii "http://" ++ (host ++ (ascii ":80" ++ path)))) ↔ 58 ∉ path := by
  have hnone : ∀ p ∈ (none : Option (List UInt8)), 47 ∉ p := by
    rintro p hp
    cases hp
  have hsome : ∀ p ∈ some (ascii "80"), 47 ∉ p := by
    rintro p hp
    exact Option.some.inj hp ▸ by decide
  have h : buildRequest (ascii "http://" ++ (host ++ path)) =
      if 58 ∈ path then .error "[Error] File path cannot contain `column` signal.\n"
      else .ok (newRequest (if path = [] then ascii "/" else path) host (ascii "80")) :=
    buildRequest_noPort (u := ⟨host, none, path, hcolon, hslash, hnone, hpath⟩) rfl
  have h80 : buildRequest (ascii "http://" ++ (host ++ (ascii ":80" ++ path))) =
      .ok (newRequest (if path = [] then ascii "/" else path) host (ascii "80")) :=
    (buildRequest_port (u := ⟨host, some (ascii "80"), path, hcolon, hslash, hsome, hpath⟩)
      rfl).trans (if_neg (by decide))
  rw [h, h80]
  by_cases hmem : 58 ∈ path
  · rw [if_pos hmem]
    exact ⟨fun hsame => absurd hsame id, fun hnot => absurd hmem hnot⟩
  · rw [if_neg hmem]
    exact ⟨fun _ => hmem, fun _ => ⟨rfl, rfl, rfl⟩⟩

end Ports

/-- The port of a path without a colon. -/
theorem default_port_iff_index :
    SameOutcome (buildRequest (ascii "http://h/i")) (buildRequest (ascii "http://h:80/i")) :=
  (@default_port_iff (ascii "h") (ascii "/i") (by decide) (by decide)
    (fun _ hb => (Option.some.inj hb).symm)).mpr (by decide)

/-- A colon in the path is taken for that of the port, if there is none. -/
theorem path_colon : ¬ ∀ host path : List UInt8, 58 ∉ host → 47 ∉ host →
    (∀ b ∈ path.head?, b = 47) →
    SameOutcome (buildRequest (ascii "http://" ++ (host ++ path)))
      (buildRequest (ascii "http://" ++ (host ++ (ascii ":80" ++ path)))) := by
  intro h
  have hsame := h (ascii "h") (ascii "/a:b") (by decide) (by decide)
    (fun _ hb => (Option.some.inj hb).symm)
  have hfails : buildRequest (ascii "http://" ++ (ascii "h" ++ ascii "/a:b")) =
      .error "[Error] File path cannot contain `column` signal.\n" := by decide
  have hok : buildRequest (ascii "http://" ++ (ascii "h" ++ (ascii ":80" ++ ascii "/a:b"))) =
      .ok (newRequest (ascii "/a:b") (ascii "h") (ascii "80")) := by decide
  rw [hfails, hok] at hsame
  exact hsame

/-- **Only a valid port is accepted** exactly if the one that is given is refused by its value, or
is a number of an `int` other than `65536`. -/
theorem valid_port_iff (input : List UInt8) :
    (∀ req, buildRequest input = .ok req → ValidPort req.port) ↔
      ∀ u : Url, u.render = input → ∀ p ∈ u.port,
        atoi p > 65536 ∨ IsNumber p ∧ value p < 2 ^ 31 ∧ value p ≠ 65536 := by
  constructor
  · rintro h u rfl p hport
    by_cases hrefused : atoi p > 65536
    · exact Or.inl hrefused
    · have hbuild := buildRequest_port hport
      rw [if_neg hrefused] at hbuild
      have hreq : u.request.port = p := by
        rw [Url.request, newRequest, hport, Option.getD_some]
      obtain ⟨hnumber, hle⟩ := hreq ▸ h _ hbuild
      exact Or.inr ⟨hnumber, by omega, by omega⟩
  · intro h req hreq
    obtain ⟨u, hu, rfl⟩ := exists_url hreq
    rw [← hu] at hreq
    cases hport : u.port with
    | none =>
      have hvalid : ValidPort (ascii "80") :=
        ⟨⟨by decide, List.all_eq_true.mp (by decide)⟩, by decide⟩
      rwa [Url.request, hport]
    | some p =>
      rw [buildRequest_port hport] at hreq
      split at hreq
      · cases hreq
      rename_i hle
      obtain ⟨hnumber, hlt, hne⟩ := (h u hu p hport).resolve_left hle
      rw [atoi_digits hnumber.ne_nil hnumber.digits hlt] at hle
      have hmax : value p ≤ 65535 := by omega
      rw [Url.request, hport]
      exact ⟨hnumber, hmax⟩

/-- The bound is one too high. -/
theorem port_above :
    ¬ ∀ input req, buildRequest input = .ok req → ValidPort req.port := by
  intro h
  have hok : buildRequest (ascii "http://h:65536/") =
      .ok (newRequest (ascii "/") (ascii "h") (ascii "65536")) := by decide
  exact absurd (h _ _ hok).le (by decide)

end NetworkingLearning.Http
