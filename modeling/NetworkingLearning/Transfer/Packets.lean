import NetworkingLearning.Transfer.Sender

/-!
# The packets of a file (`sender_main.c:160-176`, `adt.c:149-160`)

`genuinePacket file q` is what `sendpkts` builds for `q`: of its state only `totalSeq` and
`lastChunk` go into a packet, and these never change after `initSenderStat`.

* `totalSeq` is `1 + (totalBytes - 1) / MAX_PAYLOAD_LEN` as an `uint32_t`. For an empty file
  `totalBytes - 1` wraps, so the sizes here start at one byte.
* `payloads` are the bytes that the first packets carry, one after another: what a receiver writes
  that gets each of them once and in order.

Results:
* `totalSeq_spec`: how many packets a file has, and how long the last one is.
* `payloads_eq_take`, `payloads_totalSeq`: the payloads of the first packets are a prefix of the
  file, those of all packets the file, for a file of fewer than `2 ^ 32` bytes. What becomes of
  longer ones is in `Chunking`.
-/

namespace NetworkingLearning.Transfer

open NetworkingLearning.Machine

/-- The number of packets of a file. -/
def totalSeq (file : List UInt8) : ℕ := (initSenderStat file.length).totalSeq

/-- The packet with number `q` of a file. -/
def genuinePacket (file : List UInt8) (q : ℕ) : RdtPacket :=
  buildPacket file (initSenderStat file.length) q

/-- The bytes of a packet that are written to the file. -/
def RdtPacket.payloadBytes (packet : RdtPacket) : List UInt8 := packet.data.take packet.payload

/-- The payloads of the packets below `l`. -/
def payloads (pkts : ℕ → RdtPacket) (l : ℕ) : List UInt8 :=
  (List.range l).flatMap fun q => (pkts q).payloadBytes

/-- `total` packets that carry their numbers, the last with the fin byte. -/
structure Numbered (pkts : ℕ → RdtPacket) (total : ℕ) : Prop where
  total_lt : total < 2 ^ 32
  seqNum : ∀ q, (pkts q).seqNum = q
  finByte : ∀ q, (pkts q).finByte = 1 ↔ q + 1 = total

section Packets

variable {file : List UInt8} {q l : ℕ}

theorem totalSeq_lt (file : List UInt8) : totalSeq file < 2 ^ 32 := u32_lt _

theorem genuinePacket_eq : genuinePacket file q =
    preparePacket file q
      (if q + 1 = totalSeq file then (initSenderStat file.length).lastChunk else maxPayloadLen)
      (q + 1 = totalSeq file) := by
  unfold genuinePacket buildPacket totalSeq
  rfl

/-- A packet before the last is full. -/
theorem genuinePacket_inner (hq : q + 1 ≠ totalSeq file) :
    ∃ d, genuinePacket file q = ⟨q, 0, maxPayloadLen, 0, d⟩ := by
  simp only [genuinePacket_eq, preparePacket, if_neg hq, decide_eq_false hq]
  exact ⟨_, rfl⟩

theorem genuinePacket_last (hq : q + 1 = totalSeq file) :
    ∃ d, genuinePacket file q = ⟨q, 0, (initSenderStat file.length).lastChunk, 1, d⟩ := by
  simp only [genuinePacket_eq, preparePacket, if_pos hq, decide_eq_true hq]
  exact ⟨_, rfl⟩

/-- The fin byte marks the last packet. -/
theorem genuinePacket_finByte : (genuinePacket file q).finByte = 1 ↔ q + 1 = totalSeq file := by
  simp only [genuinePacket_eq, preparePacket]
  split
  · rename_i h
    simpa using h
  · rename_i h
    simpa using h

/-- Any state of the sender of a file builds its packets. -/
theorem buildPacket_eq {stat : SenderStat} (hT : stat.totalSeq = totalSeq file)
    (hl : stat.lastChunk = (initSenderStat file.length).lastChunk) :
    buildPacket file stat q = genuinePacket file q := by
  simp only [genuinePacket, buildPacket, hT, hl, totalSeq]

theorem numbered_genuinePacket (file : List UInt8) :
    Numbered (genuinePacket file) (totalSeq file) :=
  ⟨totalSeq_lt file, fun _ => rfl, fun _ => genuinePacket_finByte⟩

theorem payloads_succ (pkts : ℕ → RdtPacket) (l : ℕ) :
    payloads pkts (l + 1) = payloads pkts l ++ (pkts l).payloadBytes := by
  simp [payloads, List.range_succ]

/-- **The number of packets and the length of the last one**, for every size `totalSeq` can
count. -/
theorem totalSeq_chunks (h1 : 1 ≤ file.length)
    (h2 : file.length ≤ maxPayloadLen * (2 ^ 32 - 1)) : 1 ≤ totalSeq file ∧
    maxPayloadLen * (totalSeq file - 1) + (initSenderStat file.length).lastChunk = file.length ∧
    1 ≤ (initSenderStat file.length).lastChunk ∧
    (initSenderStat file.length).lastChunk ≤ maxPayloadLen := by
  unfold maxPayloadLen at h2
  have hu : u64 (file.length + 2 ^ 64 - 1) = file.length - 1 := by
    unfold u64
    omega
  have hT : totalSeq file = 1 + (file.length - 1) / maxPayloadLen := by
    simp only [totalSeq, initSenderStat]
    rw [hu]
    exact u32_of_lt (by unfold maxPayloadLen; omega)
  rw [hT]
  simp only [initSenderStat]
  unfold maxPayloadLen
  split <;> omega

variable (h1 : 1 ≤ file.length) (h2 : file.length < 2 ^ 32)

include h1 h2

/-- **The packets of a file** of at least one byte and less than 4 GiB. -/
theorem totalSeq_spec : 1 ≤ totalSeq file ∧
    maxPayloadLen * (totalSeq file - 1) + (initSenderStat file.length).lastChunk = file.length ∧
    (initSenderStat file.length).lastChunk ≤ maxPayloadLen := by
  obtain ⟨hT, hlen, -, hle⟩ := totalSeq_chunks h1 (by unfold maxPayloadLen; omega)
  exact ⟨hT, hlen, hle⟩

theorem genuinePacket_payloadBytes (hq : q < totalSeq file) :
    (genuinePacket file q).payloadBytes =
      (file.drop (maxPayloadLen * q)).take (if q + 1 = totalSeq file then
        (initSenderStat file.length).lastChunk else maxPayloadLen) := by
  obtain ⟨-, hlen, hle⟩ := totalSeq_spec h1 h2
  have hoff : u32 (maxPayloadLen * q) = maxPayloadLen * q := by
    refine u32_of_lt ?_
    unfold maxPayloadLen at hlen ⊢
    omega
  simp only [genuinePacket_eq, RdtPacket.payloadBytes, preparePacket, hoff]
  have hfull : (if q + 1 = totalSeq file then (initSenderStat file.length).lastChunk
      else maxPayloadLen) ≤ (file.drop (maxPayloadLen * q)).length := by
    rw [List.length_drop]
    unfold maxPayloadLen at hlen hle ⊢
    split
    · rename_i hlast
      rw [← hlast] at hlen
      omega
    · omega
  generalize (if q + 1 = totalSeq file then (initSenderStat file.length).lastChunk
      else maxPayloadLen) = len at hfull ⊢
  rw [List.take_append_of_le_length (by rw [List.length_take, min_eq_left hfull]), List.take_take,
    min_self]

/-- **The payloads of the first packets are a prefix of the file.** -/
theorem payloads_eq_take (hl : l ≤ totalSeq file) :
    payloads (genuinePacket file) l = file.take (maxPayloadLen * l) := by
  obtain ⟨-, hlen, hle⟩ := totalSeq_spec h1 h2
  induction l with
  | zero => simp [payloads]
  | succ l ih =>
    rw [payloads_succ, ih (by omega), genuinePacket_payloadBytes h1 h2 hl, Nat.mul_succ,
      List.take_add]
    split
    · rename_i hlast
      rw [← hlast, Nat.add_sub_cancel] at hlen
      have hdrop : (file.drop (maxPayloadLen * l)).length =
          (initSenderStat file.length).lastChunk := by
        rw [List.length_drop]
        omega
      rw [List.take_of_length_le hdrop.le, List.take_of_length_le (hdrop.trans_le hle)]
    · rfl

theorem payloads_totalSeq : payloads (genuinePacket file) (totalSeq file) = file := by
  obtain ⟨hpos, hlen, hle⟩ := totalSeq_spec h1 h2
  rw [payloads_eq_take h1 h2 (le_refl _)]
  refine List.take_of_length_le ?_
  obtain ⟨t, ht⟩ : ∃ t, totalSeq file = t + 1 := ⟨totalSeq file - 1, by omega⟩
  rw [ht, Nat.add_sub_cancel] at hlen
  rw [ht, Nat.mul_succ]
  omega

end Packets

end NetworkingLearning.Transfer
