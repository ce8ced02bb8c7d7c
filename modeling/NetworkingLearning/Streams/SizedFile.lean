import NetworkingLearning.Machine.Buffers

/-!
# A file behind its size (`mp0/src/server.c:135-158`, `mp0/src/client.c:81-107`)

The server sends the size of a file in one byte (`server.c:137`) and then the file
(`server.c:144-152`); the client reads the byte (`client.c:81-90`), and as many bytes as it says
into a buffer of `MAXDATASIZE` bytes (`client.c:92-102`). A zero is stored behind the file before it
is printed (`client.c:104`).

* A loop over a socket is given the results of its calls, `sizes`. A call takes some of the bytes
  that are left, but one at least where there are any; `Pieces` says this of the results of a loop
  that ends when none is left.
* The stream is what the server has sent, in order. What a `recv` returns has been sent by then.
* A store outside the buffer has no result (`store`). Nothing keeps the second `recv` inside of it:
  the size is a `uint8_t`, and the buffer has 100 bytes.
* `receiveFile` is the client before the zero, `client` with it.

Results:
* `receiveFile_spec`, `client_spec`: what the client ends with.
* `intact_iff`: a file arrives intact exactly if it has less than 100 bytes; with 100, only the zero
  that the client puts after it is stored outside.

Out of scope: errors of the calls, a server that closes early, what the client prints, and
`talker.c` and `listener.c`, which share nothing with these two.
-/

namespace NetworkingLearning.Streams

open NetworkingLearning.Machine

/-- The results of the calls of `do … while (n > 0)`, each taking some of the `n` bytes left. -/
def Pieces : ℕ → List ℕ → Prop
  | _, [] => False
  | n, k :: sizes =>
    k ≤ n ∧ (0 < n → 0 < k) ∧ if n - k > 0 then Pieces (n - k) sizes else sizes = []

instance Pieces.decidable : ∀ n sizes, Decidable (Pieces n sizes)
  | _, [] => isFalse id
  | n, k :: sizes =>
    haveI := Pieces.decidable (n - k) sizes
    inferInstanceAs (Decidable (k ≤ n ∧ (0 < n → 0 < k) ∧
      if n - k > 0 then Pieces (n - k) sizes else sizes = []))

/-- A byte for a `uint8_t`. -/
def u8 (x : ℕ) : UInt8 := UInt8.ofNat x

/-! ## The server -/

/-- `sendfile` of `k` bytes from the offset of the file. -/
def sendfile (file : List UInt8) (offset k : ℕ) : List UInt8 := (file.drop offset).take k

/-- The loop of the server. -/
def sendLoop (file : List UInt8) : ℕ → ℕ → List ℕ → List UInt8
  | _, _, [] => []
  | offset, bytesToSend, k :: sizes =>
    sendfile file offset k ++
      if bytesToSend - k > 0 then sendLoop file (offset + k) (bytesToSend - k) sizes else []

/-- What the server sends: `file_size`, and the file. -/
def server (file : List UInt8) (sizes : List ℕ) : List UInt8 :=
  u8 file.length :: sendLoop file 0 (u8 file.length).toNat sizes

/-! ## The client -/

/-- `MAXDATASIZE`. -/
def maxDataSize : ℕ := 100

/-- The loop of the client. -/
def recvLoop (numbytes : ℕ) : List UInt8 → ℕ → List UInt8 → List ℕ → Option (ℕ × List UInt8)
  | _, _, _, [] => none
  | stream, bytesReceived, buf, k :: sizes =>
    match store buf bytesReceived (stream.take k) with
    | none => none
    | some buf =>
      if numbytes > bytesReceived + k then
        recvLoop numbytes (stream.drop k) (bytesReceived + k) buf sizes
      else some (bytesReceived + k, buf)

/-- The client up to its last loop: the number of bytes received, and the buffer. -/
def receiveFile (buf stream : List UInt8) (sizes : List ℕ) : Option (ℕ × List UInt8) :=
  match stream with
  | [] => none
  | numbytes :: stream => recvLoop numbytes.toNat stream 0 buf sizes

/-- The client, with the zero after the file. -/
def client (buf stream : List UInt8) (sizes : List ℕ) : Option (ℕ × List UInt8) :=
  match stream with
  | [] => none
  | numbytes :: stream =>
    match recvLoop numbytes.toNat stream 0 buf sizes with
    | none => none
    | some (bytesReceived, buf) =>
      (store buf numbytes.toNat [0]).map fun buf => (bytesReceived, buf)

/-! ## What the client ends with -/

section Transfer

variable {n r offset : ℕ} {sends recvs sizes : List ℕ} {file buf stream bytes : List UInt8}

@[simp] theorem u8_toNat (n : ℕ) : (u8 n).toNat = n % 256 := UInt8.toNat_ofNat'

/-- What the loop sends does not depend on how it is cut. -/
theorem sendLoop_eq (hp : Pieces n sizes) :
    sendLoop file offset n sizes = sendfile file offset n := by
  induction sizes generalizing offset n with
  | nil => exact hp.elim
  | cons k sizes ih =>
    obtain ⟨hk, -, hrest⟩ := hp
    have hn : n = k + (n - k) := by omega
    rw [sendLoop]
    split at hrest
    · rename_i hpos
      rw [if_pos hpos, ih hrest]
      conv_rhs => rw [hn]
      simp only [sendfile, List.take_add, List.drop_drop]
    · rename_i hpos
      rw [if_neg hpos, List.append_nil]
      congr 1
      omega

/-- The stream: the size, and that many bytes of the file. -/
theorem server_eq (hp : Pieces (u8 file.length).toNat sends) :
    server file sends = u8 file.length :: file.take (u8 file.length).toNat := by
  rw [server, sendLoop_eq hp]
  rfl

theorem length_sent : (file.take (u8 file.length).toNat).length = (u8 file.length).toNat := by
  rw [List.length_take, u8_toNat]
  exact min_eq_left (Nat.mod_le _ _)

/-- The bytes of a piece, and those that are left. -/
theorem length_piece {k : ℕ} (hs : stream.length = n - r) (hk : k ≤ n - r) :
    (stream.take k).length = k ∧ (stream.drop k).length = n - (r + k) := by
  rw [List.length_take, List.length_drop]
  omega

/-- **The loop of the client**, with `r` bytes in a buffer that holds `n`, stores the others behind
them, however they are cut. -/
theorem recvLoop_of_le (hr : r ≤ n) (hn : n ≤ buf.length) (hs : stream.length = n - r)
    (hp : Pieces (n - r) sizes) :
    ∃ buf', recvLoop n stream r buf sizes = some (n, buf') ∧ buf'.length = buf.length ∧
      buf'.take n = buf.take r ++ stream := by
  induction sizes generalizing stream r buf with
  | nil => exact hp.elim
  | cons k sizes ih =>
    obtain ⟨hk, -, hrest⟩ := hp
    obtain ⟨hlen, hdrop⟩ := length_piece hs hk
    obtain ⟨buf₁, hstore, hbuf₁, -, htake⟩ :=
      store_of_le buf r (stream.take k) (by omega)
    rw [hlen] at htake
    simp only [recvLoop, hstore]
    have hfit : r + k ≤ n := by omega
    have hn' : n ≤ buf₁.length := hn.trans_eq hbuf₁.symm
    split at hrest
    · rename_i hmore
      rw [Nat.sub_sub] at hrest
      obtain ⟨buf', hloop, hlen', htake'⟩ :=
        ih hfit hn' hdrop hrest
      refine ⟨buf', ?_, hlen'.trans hbuf₁, ?_⟩
      · rw [if_pos (by omega), hloop]
      · rw [htake', htake, List.append_assoc, List.take_append_drop]
    · rename_i hmore
      have hend : r + k = n := by omega
      rw [if_neg (by omega), hend]
      refine ⟨buf₁, rfl, hbuf₁, ?_⟩
      have hall : stream.take k = stream := List.take_of_length_le (by omega)
      rw [← hend, htake, hall]

/-- The loop stores outside of a buffer that does not hold `n`. -/
theorem recvLoop_of_lt (hr : r ≤ buf.length) (hn : buf.length < n) (hs : stream.length = n - r)
    (hp : Pieces (n - r) sizes) : recvLoop n stream r buf sizes = none := by
  induction sizes generalizing stream r buf with
  | nil => exact hp.elim
  | cons k sizes ih =>
    obtain ⟨hk, -, hrest⟩ := hp
    obtain ⟨hlen, hdrop⟩ := length_piece hs hk
    by_cases hfit : r + k ≤ buf.length
    · obtain ⟨buf₁, hstore, hbuf₁, -⟩ :=
        store_of_le buf r (stream.take k) (hlen.symm ▸ hfit)
      rw [if_pos (by omega), Nat.sub_sub] at hrest
      simp only [recvLoop, hstore]
      rw [if_pos (by omega), ih (by omega) (by omega) hdrop hrest]
    · simp only [recvLoop, store_of_lt (hlen.symm ▸ not_le.mp hfit)]

/-- What is received up to a size below `bound` is the file exactly if the file is below it. -/
theorem intact_iff_lt {received : Option (ℕ × List UInt8)} {bound : ℕ} (hbound : bound ≤ 256)
    (hsome : (u8 file.length).toNat < bound →
      ∃ buf', received = some ((u8 file.length).toNat, buf') ∧
        buf'.take (u8 file.length).toNat = file.take (u8 file.length).toNat)
    (hnone : bound ≤ (u8 file.length).toNat → received = none) :
    (∃ buf', received = some (file.length, buf') ∧ buf'.take file.length = file) ↔
      file.length < bound := by
  have hsize := u8_toNat file.length
  constructor
  · rintro ⟨buf', hreceived, -⟩
    by_contra hlong
    rcases Nat.lt_or_ge (u8 file.length).toNat bound with hlt | hge
    · obtain ⟨buf₁, hreceived₁, -⟩ := hsome hlt
      have hnum : (u8 file.length).toNat = file.length :=
        congrArg Prod.fst (Option.some.inj (hreceived₁.symm.trans hreceived))
      omega
    · nomatch (hnone hge).symm.trans hreceived
  · intro h
    rw [Nat.mod_eq_of_lt (h.trans_le hbound)] at hsize
    rw [hsize, List.take_length] at hsome
    exact hsome h

variable (hs : Pieces (u8 file.length).toNat sends) (hr : Pieces (u8 file.length).toNat recvs)

include hs hr

/-- **What the client has received.** -/
theorem receiveFile_spec (buf : List UInt8) : ((u8 file.length).toNat ≤ buf.length →
      ∃ buf', receiveFile buf (server file sends) recvs = some ((u8 file.length).toNat, buf') ∧
        buf'.length = buf.length ∧
        buf'.take (u8 file.length).toNat = file.take (u8 file.length).toNat) ∧
    (buf.length < (u8 file.length).toNat →
      receiveFile buf (server file sends) recvs = none) := by
  rw [server_eq hs]
  refine ⟨fun hn => ?_, fun hn => ?_⟩
  · exact recvLoop_of_le (Nat.zero_le _) hn length_sent hr
  · exact recvLoop_of_lt (Nat.zero_le _) hn length_sent hr

/-- **What the client ends with**: its zero wants a byte more. -/
theorem client_spec (buf : List UInt8) : ((u8 file.length).toNat < buf.length →
      ∃ buf', client buf (server file sends) recvs = some ((u8 file.length).toNat, buf') ∧
        buf'.take (u8 file.length).toNat = file.take (u8 file.length).toNat) ∧
    (buf.length ≤ (u8 file.length).toNat → client buf (server file sends) recvs = none) := by
  obtain ⟨hsome, hnone⟩ := receiveFile_spec hs hr buf
  rw [server_eq hs] at hsome hnone ⊢
  simp only [receiveFile] at hsome hnone
  refine ⟨fun hn => ?_, fun hn => ?_⟩
  · obtain ⟨buf₁, hrecv, hlen, htake⟩ := hsome hn.le
    obtain ⟨buf', hstore, -, htake', -⟩ :=
      store_of_le buf₁ (u8 file.length).toNat [0] (hlen.symm ▸ hn)
    refine ⟨buf', ?_, htake'.trans htake⟩
    simp only [client, hrecv, hstore, Option.map_some]
  · rcases hn.lt_or_eq with hlt | heq
    · simp only [client, hnone hlt]
    · obtain ⟨buf₁, hrecv, hlen, -⟩ := hsome heq.ge
      have hstore : store buf₁ (u8 file.length).toNat [0] = none :=
        store_of_lt (by rw [hlen, heq]; exact Nat.lt_succ_self _)
      simp only [client, hrecv, hstore, Option.map_none]

/-- **A file arrives intact** exactly if it has less than 100 bytes. Its bytes alone, before the
zero, do exactly if it has no more than 100. -/
theorem intact_iff (hbuf : buf.length = maxDataSize) :
    ((∃ buf', client buf (server file sends) recvs = some (file.length, buf') ∧
        buf'.take file.length = file) ↔ file.length < maxDataSize) ∧
      ((∃ buf', receiveFile buf (server file sends) recvs = some (file.length, buf') ∧
        buf'.take file.length = file) ↔ file.length ≤ maxDataSize) := by
  obtain ⟨hsome, hnone⟩ := client_spec hs hr buf
  obtain ⟨hsome', hnone'⟩ := receiveFile_spec hs hr buf
  rw [hbuf] at hsome hnone hsome' hnone'
  refine ⟨intact_iff_lt (by decide) hsome hnone, ?_⟩
  rw [← Nat.lt_succ_iff]
  refine intact_iff_lt (by decide) (fun hlt => ?_) hnone'
  exact (hsome' (Nat.le_of_lt_succ hlt)).imp fun buf' h => ⟨h.1, h.2.2⟩

end Transfer

/-- Three bytes, sent in two pieces and received in three. -/
theorem intact_iff_threeBytes :
    ∃ buf', client (List.replicate 100 0) (server [7, 8, 9] [1, 2]) [1, 1, 1] = some (3, buf') ∧
      buf'.take 3 = [7, 8, 9] :=
  have hs : Pieces (u8 [7, 8, 9].length).toNat [1, 2] := by decide
  have hr : Pieces (u8 [7, 8, 9].length).toNat [1, 1, 1] := by decide
  (intact_iff hs hr rfl).1.mpr (by decide)

/-- Of a file of 300 bytes the client receives 44. -/
theorem truncated : ¬ ∀ (file buf : List UInt8) (sends recvs : List ℕ),
    buf.length = maxDataSize → Pieces (u8 file.length).toNat sends →
    Pieces (u8 file.length).toNat recvs →
    ∃ buf', client buf (server file sends) recvs = some (file.length, buf') ∧
      buf'.take file.length = file := by
  intro h
  have hsize : (u8 (List.replicate 300 (7 : UInt8)).length).toNat = 44 := by
    rw [u8_toNat, List.length_replicate]
  have hp : Pieces (u8 (List.replicate 300 (7 : UInt8)).length).toNat [44] := by
    rw [hsize]
    decide
  obtain ⟨buf', hc, -⟩ := h (List.replicate 300 7) (List.replicate 100 0) [44] [44] rfl hp hp
  obtain ⟨buf₁, hc₁, -⟩ := (client_spec hp hp (List.replicate 100 0)).1 (by rw [hsize]; decide)
  have hnum := congrArg Prod.fst (Option.some.inj (hc₁.symm.trans hc))
  simp only [List.length_replicate] at hnum
  exact absurd hnum (by decide)

end NetworkingLearning.Streams
