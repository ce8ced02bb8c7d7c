import NetworkingLearning.Transfer.Packets

/-!
# Cutting a file into packets (`sender_main.c:160-176`, `adt.c:149-160`)

The whole range of sizes that `totalSeq` can count, up to `1444 * (2 ^ 32 - 1)` bytes. The number of
packets and the length of the last one are right throughout.

The offset of a chunk is not: `file + MAX_PAYLOAD_LEN * seq` (`sender_main.c:162`) is the product of
an `int` and a `uint32_t`, which is a `uint32_t`. It wraps from packet `2974355` on, and such a
packet carries bytes from the start of the file (`wrapped`). The packet before it begins below `2 ^
32` and is read beyond, so files are cut as they should be up to its end, 1324 bytes further.

Results:
* `payloads_getElem?`: which byte of the file each byte of the payloads is.
* `chunked_iff`: the packets carry the file exactly if each byte equals the one at its wrapped
  place; that is so for every file of at most `4294968620` bytes, and for no greater length.
-/

namespace NetworkingLearning.Transfer

open NetworkingLearning.Machine

/-- The packets carry the bytes of the file in order, between `1` and `MAX_PAYLOAD_LEN` of them
each, and the last one alone has its fin byte set. -/
structure Chunked (file : List UInt8) : Prop where
  payloads : payloads (genuinePacket file) (totalSeq file) = file
  length : ∀ q < totalSeq file, 1 ≤ (genuinePacket file q).payload ∧
    (genuinePacket file q).payload ≤ maxPayloadLen
  fin : ∀ q < totalSeq file, (genuinePacket file q).finByte ≠ 0 ↔ q + 1 = totalSeq file

/-- Where the byte `i` of the payloads comes from: the offset of its chunk is a `uint32_t`. -/
def wrapped (i : ℕ) : ℕ := u32 (maxPayloadLen * (i / maxPayloadLen)) + i % maxPayloadLen

/-- The length of the longest files without an offset that wraps. -/
def maxChunked : ℕ := 4294968620

theorem wrapped_of_lt {i : ℕ} (hi : i < maxChunked) : wrapped i = i := by
  unfold maxChunked at hi
  have hlt : maxPayloadLen * (i / maxPayloadLen) < 2 ^ 32 := by
    unfold maxPayloadLen
    omega
  rw [wrapped, u32_of_lt hlt, Nat.div_add_mod]

theorem wrapped_maxChunked : wrapped maxChunked = 1324 := by decide

section Chunks

variable {file : List UInt8} {q l i : ℕ}

/-- The length of the payload of a packet. -/
def payloadLen (file : List UInt8) (q : ℕ) : ℕ :=
  if q + 1 = totalSeq file then (initSenderStat file.length).lastChunk else maxPayloadLen

theorem genuinePacket_payload : (genuinePacket file q).payload = payloadLen file q := by
  rw [genuinePacket_eq]
  rfl

theorem genuinePacket_fin_ne_zero :
    (genuinePacket file q).finByte ≠ 0 ↔ q + 1 = totalSeq file := by
  simp only [genuinePacket_eq, preparePacket]
  split
  · rename_i h
    simpa using h
  · rename_i h
    simpa using h

variable (h1 : 1 ≤ file.length) (h2 : file.length ≤ maxPayloadLen * (2 ^ 32 - 1))

include h1 h2

theorem payloadLen_le (hq : q < totalSeq file) :
    1 ≤ payloadLen file q ∧ payloadLen file q ≤ maxPayloadLen ∧
      maxPayloadLen * q + payloadLen file q ≤ file.length := by
  obtain ⟨-, hlen, hpos, hle⟩ := totalSeq_chunks h1 h2
  unfold payloadLen
  unfold maxPayloadLen at hlen hle ⊢
  split
  · rename_i hlast
    rw [← hlast] at hlen
    omega
  · omega

/-- The payload of a packet is read at the wrapped offset. -/
theorem payloadBytes_getElem? (hq : q < totalSeq file) :
    (genuinePacket file q).payloadBytes.length = payloadLen file q ∧
      ∀ k < payloadLen file q,
        (genuinePacket file q).payloadBytes[k]? = file[u32 (maxPayloadLen * q) + k]? := by
  obtain ⟨-, -, hfit⟩ := payloadLen_le h1 h2 hq
  have hoff : u32 (maxPayloadLen * q) ≤ maxPayloadLen * q := Nat.mod_le _ _
  have hchunk : ((file.drop (u32 (maxPayloadLen * q))).take (payloadLen file q)).length =
      payloadLen file q := by
    rw [List.length_take, List.length_drop]
    omega
  have hbytes : (genuinePacket file q).payloadBytes =
      (file.drop (u32 (maxPayloadLen * q))).take (payloadLen file q) := by
    rw [genuinePacket_eq]
    simp only [RdtPacket.payloadBytes, preparePacket]
    change List.take (payloadLen file q) (List.take (payloadLen file q) _ ++
      List.drop (payloadLen file q) _) = _
    rw [List.take_append_of_le_length hchunk.ge, List.take_take, min_self]
  rw [hbytes]
  refine ⟨hchunk, fun k hk => ?_⟩
  rw [List.getElem?_take_of_lt hk, List.getElem?_drop]

/-- **Each byte of the payloads** is the byte of the file at the wrapped place. -/
theorem payloads_getElem? (hl : l ≤ totalSeq file) :
    (payloads (genuinePacket file) l).length = min (maxPayloadLen * l) file.length ∧
      ∀ i < (payloads (genuinePacket file) l).length,
        (payloads (genuinePacket file) l)[i]? = file[wrapped i]? := by
  obtain ⟨-, hlen, -, hle⟩ := totalSeq_chunks h1 h2
  induction l with
  | zero => exact ⟨by simp [payloads], fun i hi => absurd hi (by simp [payloads])⟩
  | succ l ih =>
    obtain ⟨hil, hib⟩ := ih (by omega)
    obtain ⟨hpl, hpb⟩ := payloadBytes_getElem? h1 h2 hl
    obtain ⟨-, hmax, hfit⟩ := payloadLen_le h1 h2 hl
    rw [min_eq_left (by omega)] at hil
    have hsum : (payloads (genuinePacket file) (l + 1)).length =
        maxPayloadLen * l + payloadLen file l := by
      rw [payloads_succ, List.length_append, hil, hpl]
    refine ⟨?_, fun i hi => ?_⟩
    · rw [hsum]
      unfold payloadLen at hfit ⊢
      unfold maxPayloadLen at hlen hle hfit ⊢
      split
      · rename_i hlast
        rw [← hlast] at hlen
        omega
      · rename_i hlast
        rw [if_neg hlast] at hfit
        omega
    · rw [hsum] at hi
      rw [payloads_succ]
      by_cases hlt : i < maxPayloadLen * l
      · rw [List.getElem?_append_left (hil.symm ▸ hlt)]
        exact hib i (hil.symm ▸ hlt)
      · obtain ⟨k, rfl⟩ := Nat.exists_eq_add_of_le (not_lt.mp hlt)
        have hk : k < maxPayloadLen := by omega
        rw [List.getElem?_append_right (by omega), hil, Nat.add_sub_cancel_left,
          hpb k (by omega)]
        unfold wrapped
        rw [Nat.mul_add_div (by decide), Nat.div_eq_of_lt hk, add_zero, Nat.mul_add_mod,
          Nat.mod_eq_of_lt hk]

/-- The packets carry the file where no byte changes by the wrapping. -/
theorem chunked_iff_wrapped :
    Chunked file ↔ ∀ i < file.length, file[i]? = file[wrapped i]? := by
  obtain ⟨hpos, hlen, -, hle⟩ := totalSeq_chunks h1 h2
  obtain ⟨hl, hb⟩ := payloads_getElem? h1 h2 (le_refl (totalSeq file))
  have hall : min (maxPayloadLen * totalSeq file) file.length = file.length := by
    refine min_eq_right ?_
    obtain ⟨t, ht⟩ : ∃ t, totalSeq file = t + 1 := ⟨totalSeq file - 1, by omega⟩
    rw [ht, Nat.add_sub_cancel] at hlen
    rw [ht, Nat.mul_succ]
    omega
  rw [hall] at hl
  rw [hl] at hb
  constructor
  · intro h i hi
    rw [← hb i hi, h.payloads]
  · intro h
    refine ⟨List.ext_getElem? fun i => ?_, fun q hq => ?_, fun q _ => genuinePacket_fin_ne_zero⟩
    · by_cases hi : i < file.length
      · rw [hb i hi, h i hi]
      · rw [List.getElem?_eq_none (by omega), List.getElem?_eq_none (by omega)]
    · obtain ⟨hpos, hmax, -⟩ := payloadLen_le h1 h2 hq
      rw [genuinePacket_payload]
      exact ⟨hpos, hmax⟩

end Chunks

/-! ## Files with an offset that wraps -/

/-- `k` zeros and a one after them. -/
def zerosThenOnes (k n : ℕ) : List UInt8 := List.replicate k 0 ++ List.replicate (n - k) 1

theorem zerosThenOnes_length {k n : ℕ} (h : k ≤ n) : (zerosThenOnes k n).length = n := by
  rw [zerosThenOnes, List.length_append, List.length_replicate, List.length_replicate]
  omega

theorem zerosThenOnes_getElem? {k n i : ℕ} (h : k < n) :
    (zerosThenOnes k n)[k]? = some 1 ∧ (i < k → (zerosThenOnes k n)[i]? = some 0) := by
  unfold zerosThenOnes
  constructor
  · rw [List.getElem?_append_right List.length_replicate.le, List.length_replicate, Nat.sub_self,
      List.getElem?_replicate, if_pos (by omega)]
  · intro hi
    rw [List.getElem?_append_left (hi.trans_eq List.length_replicate.symm),
      List.getElem?_replicate, if_pos hi]

/-- The first byte of packet `2974355` is taken from the start of the file. -/
theorem not_chunked_zerosThenOnes {n : ℕ} (h : maxChunked < n)
    (hn : n ≤ maxPayloadLen * (2 ^ 32 - 1)) : ¬ Chunked (zerosThenOnes maxChunked n) := by
  have hlen := zerosThenOnes_length h.le
  intro hc
  have hb := (chunked_iff_wrapped (by omega) (by omega)).mp hc maxChunked (by omega)
  obtain ⟨hone, hzero⟩ := zerosThenOnes_getElem? (i := 1324) h
  rw [hone, wrapped_maxChunked, hzero (by decide)] at hb
  exact absurd (Option.some.inj hb) (by decide)

/-- **The packets of a file carry it** exactly if no byte of it changes by the wrapping of the
offsets. No offset wraps in a file of at most `4294968620` bytes; of every greater length there are
files that do not arrive. -/
theorem chunked_iff (file : List UInt8) (h1 : 1 ≤ file.length)
    (h2 : file.length ≤ maxPayloadLen * (2 ^ 32 - 1)) :
    (Chunked file ↔ ∀ i < file.length, file[i]? = file[wrapped i]?) ∧
      ((∀ f : List UInt8, f.length = file.length → Chunked f) ↔ file.length ≤ maxChunked) := by
  refine ⟨chunked_iff_wrapped h1 h2, fun hall => not_lt.mp fun hlt => ?_, fun hle f hf => ?_⟩
  · exact not_chunked_zerosThenOnes hlt h2 (hall _ (zerosThenOnes_length hlt.le))
  · rw [← hf] at h1 h2
    exact (chunked_iff_wrapped h1 h2).mpr fun i hi => by rw [wrapped_of_lt (by omega)]

theorem chunked_iff_twoPackets : Chunked twoPackets :=
  (chunked_iff twoPackets (by decide +kernel) (by decide +kernel)).2.mpr (by decide +kernel)
    twoPackets rfl

/-- **Lost bytes**: the claim fails at the first length with an offset that wraps. -/
theorem overlong : ¬ ∀ file : List UInt8, 1 ≤ file.length →
    file.length ≤ maxPayloadLen * (2 ^ 32 - 1) → Chunked file := by
  intro h
  have hlt : maxChunked < maxChunked + 1 := Nat.lt_succ_self _
  have hlen := zerosThenOnes_length hlt.le
  have hle : maxChunked + 1 ≤ maxPayloadLen * (2 ^ 32 - 1) := by decide
  exact not_chunked_zerosThenOnes hlt hle (h _ (by omega) (by omega))

end NetworkingLearning.Transfer
