import NetworkingLearning.Http.Responses

/-!
# Building a response (`http_server.c:201-232`)

`generateResponse` has the string alone. Here it is built as the program builds it, in an array of
zeros whose length is a sum of its own in either branch, with `strcat`, with `sprintf` at an offset,
and with a zero that is stored at the end.

* The two sums are `int`s (`http_server.c:203-204`, `http_server.c:219`). `malloc` gets them as a
  `size_t`, and succeeds for every length that is not negative.
* What is stored outside of the array has no result. That goes for `response[length] = 0`
  (`http_server.c:228`), which is one byte behind it for every response without a file.
* An array is a list, and `strcat` finds the first zero in it.

Results:
* `strcats_eq`: `strcat` after `strcat` succeeds as long as there is room for a zero.
* `generateResponseBuf_noFile`, `generateResponseBuf_file`: what either branch comes to.
* `inBounds_iff`: a response is built inside its array exactly if it is one with a file, and the
  length of the array is an `int`.
-/

namespace NetworkingLearning.Http

open NetworkingLearning.Machine NetworkingLearning.Text

/-- `malloc(length)` and `memset(response, 0, length)`. A negative length is one of a `size_t` that
no array has, and `malloc` returns `NULL`. -/
def zeroed (length : ℤ) : Option (List UInt8) :=
  if length < 0 then none else some (List.replicate length.toNat 0)

/-- `strcat`. -/
def strcat (buf str : List UInt8) : Option (List UInt8) := store buf (cstr buf).length (str ++ [0])

/-- `sprintf(buf + offset, …)` of what is printed. -/
def sprintf (buf : List UInt8) (offset : ℤ) (str : List UInt8) : Option (List UInt8) :=
  if offset < 0 then none else store buf offset.toNat (str ++ [0])

/-- The strings that `strcat` is called with, up to the end of the line. -/
def lineParts (rep : HttpResponse) (stop : List UInt8) : List (List UInt8) :=
  [rep.version, ascii " ", rep.status, ascii " ", rep.reason, stop]

/-- `generate_response`: the array, and the `strlen` that is returned. -/
def generateResponseBuf (rep : HttpResponse) : Option (List UInt8 × ℕ) :=
  let lengths := rep.version.length + 1 + rep.status.length + 1 + rep.reason.length
  if ascii "200" <+: rep.status then do
    let clLoc := toInt (lengths + 2 : ℕ)
    let length := addInt (addInt clLoc 30) 4
    let response ← zeroed length
    let response ← (lineParts rep crlf).foldlM strcat response
    let response ← sprintf response clLoc (ascii "Content-Length: " ++ printInt (toInt rep.cl))
    let response ← strcat response crlfcrlf
    return (response, (cstr response).length)
  else do
    let length := toInt (lengths + 4 + 1 : ℕ)
    let response ← zeroed length
    let response ← (lineParts rep crlfcrlf).foldlM strcat response
    let response ← store response length.toNat [0]
    return (response, (cstr response).length)

/-! ## Strings in an array of zeros -/

/-- An array of `n` bytes with a string, and zeros behind it. -/
def padded (n : ℕ) (str : List UInt8) : List UInt8 := str ++ List.replicate (n - str.length) 0

section Padded

variable {n : ℕ} {s t : List UInt8} {ts : List (List UInt8)}

theorem length_padded (h : s.length ≤ n) : (padded n s).length = n := by
  rw [padded, List.length_append, List.length_replicate]
  omega

theorem cstr_padded (hs : 0 ∉ s) (n : ℕ) : cstr (padded n s) = s := by
  have hzeros : cstr (List.replicate (n - s.length) 0) = [] := by
    cases n - s.length with
    | zero => rfl
    | succ k => rfl
  rw [padded, cstr_append hs, hzeros, List.append_nil]

theorem store_padded (h : s.length + t.length < n) :
    store (padded n s) s.length (t ++ [0]) = some (padded n (s ++ t)) := by
  have hlen : (padded n s).length = n := length_padded (by omega)
  have hdrop : (padded n s).drop (s.length + (t ++ [0]).length) =
      List.replicate (n - (s ++ t).length - 1) 0 := by
    rw [padded, List.drop_length_add_append, List.drop_replicate, List.length_append,
      List.length_append, List.length_singleton]
    congr 1
    omega
  have hzeros : List.replicate (n - (s ++ t).length) (0 : UInt8) =
      0 :: List.replicate (n - (s ++ t).length - 1) 0 := by
    rw [← List.replicate_succ]
    congr 1
    rw [List.length_append]
    omega
  rw [store, if_pos (by rw [hlen, List.length_append, List.length_singleton]; omega), hdrop]
  rw [padded, List.take_left, padded, hzeros]
  simp only [List.append_assoc, List.singleton_append]

theorem store_padded_of_le (hs : s.length ≤ n) (h : n ≤ s.length + t.length) :
    store (padded n s) s.length (t ++ [0]) = none :=
  store_of_lt (by rw [length_padded hs, List.length_append, List.length_singleton]; omega)

/-- `strcat` after `strcat`. -/
theorem strcats_eq (hs : 0 ∉ s) (hts : ∀ t ∈ ts, 0 ∉ t) (hlt : s.length < n) :
    ts.foldlM strcat (padded n s) =
      if s.length + ts.flatten.length < n then some (padded n (s ++ ts.flatten)) else none := by
  induction ts generalizing s with
  | nil =>
    rw [List.flatten_nil, List.append_nil, List.length_nil, Nat.add_zero, if_pos hlt]
    rfl
  | cons t ts ih =>
    have ht : 0 ∉ t := hts t List.mem_cons_self
    rw [List.foldlM_cons, strcat, cstr_padded hs, List.flatten_cons]
    rcases Nat.lt_or_ge (s.length + t.length) n with hfit | hfull
    · rw [store_padded hfit]
      have hst : 0 ∉ s ++ t := by simp [hs, ht]
      refine (ih hst (fun u hu => hts u (List.mem_cons_of_mem _ hu)) ?_).trans ?_
      · rwa [List.length_append]
      · simp only [List.length_append, List.append_assoc, Nat.add_assoc]
    · rw [store_padded_of_le hlt.le hfull, if_neg (by rw [List.length_append]; omega)]
      rfl

/-- As many strings as have room in the array. -/
theorem zeroed_strcats {length : ℤ} (hts : ∀ t ∈ ts, 0 ∉ t) (hne : ts ≠ []) :
    (zeroed length >>= ts.foldlM strcat) =
      if (ts.flatten.length : ℤ) < length then some (padded length.toNat ts.flatten) else none := by
  rcases lt_trichotomy length 0 with hneg | rfl | hpos
  · rw [zeroed, if_pos hneg, if_neg (by omega)]
    rfl
  · obtain ⟨t, ts, rfl⟩ := List.exists_cons_of_ne_nil hne
    have hfull : strcat [] t = none := store_of_lt (by simp)
    rw [if_neg (by omega), zeroed, if_neg (lt_irrefl 0)]
    exact congrArg (· >>= ts.foldlM strcat) hfull
  · have hnil : padded length.toNat [] = List.replicate length.toNat 0 := rfl
    rw [zeroed, if_neg hpos.not_gt, Option.bind_eq_bind, Option.bind_some, ← hnil,
      strcats_eq List.not_mem_nil hts (by rw [List.length_nil]; omega)]
    rw [List.nil_append, List.length_nil, Nat.zero_add]
    exact if_congr (by omega) rfl rfl

end Padded

/-! ## The two branches -/

theorem length_printInt {v : ℤ} (h : -2 ^ 31 ≤ v) (h' : v < 2 ^ 31) :
    (printInt v).length ≤ 11 := by
  have hdigits : (decimal v.natAbs).length ≤ 10 := by
    rw [decimal, List.length_map]
    exact (Nat.length_toDigits_le_iff (by decide) (by decide)).mpr (by omega)
  unfold printInt
  split
  · rw [List.length_cons]
    omega
  · omega

theorem zero_notMem_field (v : ℤ) : 0 ∉ ascii "Content-Length: " ++ printInt v :=
  notMem_field (by decide) (by decide) (by decide) v

section Branches

variable {rep : HttpResponse} {stop : List UInt8}

theorem zero_notMem_lineParts (hv : 0 ∉ rep.version) (hs : 0 ∉ rep.status) (hr : 0 ∉ rep.reason)
    (hstop : 0 ∉ stop) : ∀ t ∈ lineParts rep stop, 0 ∉ t := by
  have hspace : 0 ∉ ascii " " := by decide
  simp only [lineParts, List.forall_mem_cons]
  exact ⟨hv, hspace, hs, hspace, hr, hstop, fun t ht => absurd ht List.not_mem_nil⟩

theorem zero_notMem_flatten {ts : List (List UInt8)} (h : ∀ t ∈ ts, 0 ∉ t) : 0 ∉ ts.flatten := by
  intro h0
  obtain ⟨t, ht, h0⟩ := List.mem_flatten.mp h0
  exact h t ht h0

theorem flatten_lineParts (rep : HttpResponse) (stop : List UInt8) :
    (lineParts rep stop).flatten =
      rep.version ++ ascii " " ++ rep.status ++ ascii " " ++ rep.reason ++ stop := by
  simp [lineParts]

theorem length_flatten_lineParts (rep : HttpResponse) (stop : List UInt8) :
    (lineParts rep stop).flatten.length =
      rep.version.length + 1 + rep.status.length + 1 + rep.reason.length + stop.length := by
  have hspace : (ascii " ").length = 1 := by decide
  rw [flatten_lineParts]
  simp only [List.length_append, hspace]

/-- **The response without a file** ends with a store behind its array, if it comes so far. -/
theorem generateResponseBuf_noFile (hv : 0 ∉ rep.version) (hs : 0 ∉ rep.status)
    (hr : 0 ∉ rep.reason) (h : ¬ ascii "200" <+: rep.status) : generateResponseBuf rep = none := by
  have hzero := zero_notMem_lineParts hv hs hr (by decide : 0 ∉ crlfcrlf)
  simp only [generateResponseBuf, if_neg h]
  generalize toInt (_ : ℕ) = length
  rw [← bind_assoc, zeroed_strcats hzero (List.cons_ne_nil _ _)]
  split
  · rename_i hfit
    have hout : store (padded length.toNat (lineParts rep crlfcrlf).flatten) length.toNat [0] =
        none := by
      refine store_of_lt ?_
      rw [length_padded (by omega)]
      exact Nat.lt_succ_self _
    rw [Option.bind_eq_bind, Option.bind_some, hout]
    rfl
  · rfl

/-- What the branch with a file stores behind the line. -/
theorem sprintf_strcat {n : ℕ} {line : List UInt8} (hline : 0 ∉ line) (cl : ℤ)
    (hn : line.length + 34 = n) :
    ((sprintf (padded n line) line.length (ascii "Content-Length: " ++ printInt (toInt cl))).bind
        fun response => strcat response crlfcrlf) =
      some (padded n (line ++ (ascii "Content-Length: " ++ printInt (toInt cl)) ++ crlfcrlf)) := by
  obtain ⟨hge, hlt⟩ := toInt_mem cl
  have hname : (ascii "Content-Length: ").length = 16 := by decide
  have hfour := length_crlfcrlf
  have hnumber := length_printInt hge hlt
  have hfield : (ascii "Content-Length: " ++ printInt (toInt cl)).length =
      16 + (printInt (toInt cl)).length := by rw [List.length_append, hname]
  have hzero : 0 ∉ line ++ (ascii "Content-Length: " ++ printInt (toInt cl)) := by
    rw [List.mem_append, not_or]
    exact ⟨hline, zero_notMem_field _⟩
  rw [sprintf, if_neg (by omega), Int.toNat_natCast, store_padded (by omega), Option.bind_some,
    strcat, cstr_padded hzero]
  refine store_padded ?_
  rw [List.length_append]
  omega

theorem generateResponse_parts (h : ascii "200" <+: rep.status) :
    generateResponse rep = (lineParts rep crlf).flatten ++
      (ascii "Content-Length: " ++ printInt (toInt rep.cl)) ++ crlfcrlf := by
  have hlen := length_flatten_lineParts rep crlf
  have htwo : crlf.length = 2 := by decide
  rw [flatten_lineParts, htwo] at hlen
  rw [flatten_lineParts]
  simp only [generateResponse, if_pos h]
  rw [List.take_of_length_le hlen.le]

theorem zero_notMem_generateResponse (hv : 0 ∉ rep.version) (hs : 0 ∉ rep.status)
    (hr : 0 ∉ rep.reason) (h : ascii "200" <+: rep.status) : 0 ∉ generateResponse rep := by
  rw [generateResponse_parts h, List.mem_append, List.mem_append, not_or, not_or]
  have hzero := zero_notMem_lineParts hv hs hr (by decide : 0 ∉ crlf)
  exact ⟨⟨zero_notMem_flatten hzero, zero_notMem_field _⟩, by decide⟩

/-- **The response with a file** has room in its array exactly if the length of that is an `int`. -/
theorem generateResponseBuf_file (hv : 0 ∉ rep.version) (hs : 0 ∉ rep.status)
    (hr : 0 ∉ rep.reason) (h : ascii "200" <+: rep.status) :
    generateResponseBuf rep =
      if rep.version.length + rep.status.length + rep.reason.length + 38 < 2 ^ 31 then
        some (padded (rep.version.length + rep.status.length + rep.reason.length + 38)
          (generateResponse rep), (generateResponse rep).length)
      else none := by
  have hzero := zero_notMem_lineParts hv hs hr (by decide : 0 ∉ crlf)
  have hline := zero_notMem_flatten hzero
  have hlen := length_flatten_lineParts rep crlf
  have htwo : crlf.length = 2 := by decide
  have hstring := generateResponse_parts h
  have hzeros := zero_notMem_generateResponse hv hs hr h
  have hsum : rep.version.length + 1 + rep.status.length + 1 + rep.reason.length + 2 =
      (lineParts rep crlf).flatten.length := by omega
  have hint : addInt (addInt (toInt ((lineParts rep crlf).flatten.length : ℕ)) 30) 4 =
      toInt ((lineParts rep crlf).flatten.length + (34 : ℕ)) := by
    rw [addInt_toInt, addInt_toInt, add_assoc]
    rfl
  simp only [generateResponseBuf, if_pos h]
  rw [hsum, hint, ← bind_assoc, zeroed_strcats hzero (List.cons_ne_nil _ _),
    if_congr (lt_toInt_iff (by decide) (by decide)) rfl rfl]
  by_cases hfit : (lineParts rep crlf).flatten.length + 34 < 2 ^ 31
  · have hclLoc : toInt ((lineParts rep crlf).flatten.length : ℕ) =
        (lineParts rep crlf).flatten.length := toInt_of_lt (by omega)
    have hlength : (toInt ((lineParts rep crlf).flatten.length + (34 : ℕ))).toNat =
        rep.version.length + rep.status.length + rep.reason.length + 38 := by
      rw [← Nat.cast_add, toInt_of_lt hfit, Int.toNat_natCast]
      omega
    rw [if_pos hfit, if_pos (by omega), Option.bind_eq_bind, Option.bind_some, hclLoc, hlength,
      ← Option.bind_assoc, sprintf_strcat hline _ (by omega), ← hstring, Option.bind_some,
      cstr_padded hzeros]
    rfl
  · rw [if_neg hfit, if_neg (by omega)]
    rfl

/-- **A response is built inside its array** exactly if it is one with a file, and the length of the
array is an `int`. What is returned is then the length of the whole string. -/
theorem inBounds_iff (hv : 0 ∉ rep.version) (hs : 0 ∉ rep.status) (hr : 0 ∉ rep.reason) :
    (∃ buf, generateResponseBuf rep = some (buf, (generateResponse rep).length) ∧
      cstr buf = generateResponse rep) ↔
      ascii "200" <+: rep.status ∧
        rep.version.length + rep.status.length + rep.reason.length + 38 < 2 ^ 31 := by
  by_cases h : ascii "200" <+: rep.status
  · rw [generateResponseBuf_file hv hs hr h]
    split
    · rename_i hfit
      have hcstr := cstr_padded (zero_notMem_generateResponse hv hs hr h)
        (rep.version.length + rep.status.length + rep.reason.length + 38)
      exact iff_of_true ⟨_, rfl, hcstr⟩ ⟨h, hfit⟩
    · rename_i hfull
      exact iff_of_false (fun ⟨_, hnone, _⟩ => nomatch hnone) fun hfit => hfull hfit.2
  · rw [generateResponseBuf_noFile hv hs hr h]
    exact iff_of_false (fun ⟨_, hnone, _⟩ => nomatch hnone) fun hfile => h hfile.1

end Branches

/-- A file of five bytes. -/
theorem inBounds_iff_five : ∃ buf, generateResponseBuf (newRep httpOk 5) =
    some (buf, (generateResponse (newRep httpOk 5)).length) := by
  have hversion : 0 ∉ (newRep httpOk 5).version := by decide
  obtain ⟨buf, hbuf, -⟩ :=
    (inBounds_iff hversion (by decide) (by decide)).mpr ⟨by decide, by decide⟩
  exact ⟨buf, hbuf⟩

/-- The zero at the end of `404 NOT FOUND`. -/
theorem out_of_bounds : ¬ ∀ rep : HttpResponse,
    0 ∉ rep.version → 0 ∉ rep.status → 0 ∉ rep.reason →
      ∃ buf, generateResponseBuf rep = some (buf, (generateResponse rep).length) := by
  intro h
  have hnone : generateResponseBuf (newRep httpNotFound (toSize (-1))) = none :=
    generateResponseBuf_noFile (by decide) (by decide) (by decide) (by decide)
  obtain ⟨buf, hbuf⟩ := h (newRep httpNotFound (toSize (-1))) (by decide) (by decide) (by decide)
  nomatch hnone.symm.trans hbuf

end NetworkingLearning.Http
