import NetworkingLearning.Transfer.Completion
import NetworkingLearning.Transfer.Stall

/-!
# The file that arrives (`receiver_main.c:108-112`, `adt.c:74-76`)

`map_to_queue` stores a packet at `seq % WINDOW` without asking how far it is beyond `last_ack_num`,
and nothing keeps the window of the sender below the size of the ring: a duplicate ack in fast
recovery opens it by one (`__dupAckFastRecov`). A packet more than `WINDOW` beyond `last_ack_num`
then lies in the slot of an earlier one, and is written in its place.

* `InRing` is the condition on a packet that is taken up: at most `WINDOW` beyond `last_ack_num`.
* The run of `overrun` has to be long, as the window opens by one with each duplicate. It is not
  evaluated: `window_replicate` says what any number of duplicates does, and the packets that the
  receiver stores are dealt with by the lemmas of the ring.

Results:
* `written_prefix`: if no such packet is taken up, the bytes written are a prefix of the file, and
  the whole file when the receiver has finished.
* `window_replicate`: what duplicate acks make of the first window.
* `overrun`: a file of 4099 packets, and a run that ends with three of them written.
-/

namespace NetworkingLearning.Transfer

open NetworkingLearning.Machine

/-- A packet that is within the ring when it arrives. -/
def InRing (r : Receiver) (packet : RdtPacket) : Prop := packet.seqNum ≤ r.lastAckNum + window

/-- **Integrity**: in every run in which each packet is within the ring when it is taken up, the
bytes written are a prefix of the file, and the file when the receiver has finished. -/
theorem written_prefix (file : List UInt8) (h1 : 1 ≤ file.length) (h2 : file.length < 2 ^ 32)
    (addr : SockAddr) (s : Session) (h : Session.Reachable file addr InRing s) :
    s.receiver.file <+: file ∧ (s.receiver.mode = .finished → s.receiver.file = file) := by
  obtain ⟨hT, -⟩ := totalSeq_spec h1 h2
  obtain ⟨m, A, hok⟩ := sessionOk_runs (w := window) hT (fun r p ha _ => ha) h
  obtain ⟨l, hl, hfile, hfin⟩ := hok.receiver.file_eq (le_refl window)
  rw [hfile]
  refine ⟨?_, fun hf => ?_⟩
  · rw [payloads_eq_take h1 h2 hl]
    exact List.take_prefix _ _
  · rw [hfin hf]
    exact payloads_totalSeq h1 h2

theorem written_prefix_twoPackets : ∃ s : Session, s.receiver.mode = .finished ∧
    s.receiver.file <+: twoPackets ∧ s.receiver.file = twoPackets := by
  obtain ⟨s, hs, hm, -⟩ := twoPackets_run InRing fun r p hp =>
    hp.trans ((show 1 ≤ window by decide).trans (Nat.le_add_left window r.lastAckNum))
  obtain ⟨hpre, hfin⟩ :=
    written_prefix twoPackets (by decide +kernel) (by decide +kernel) ⟨4000, 1⟩ s hs
  exact ⟨s, hm, hpre, hfin hm⟩

/-! ## The window outgrows the ring -/

/-- Fast recovery after the acks `1, 1, 1, 1`. -/
def firstRecovery : Cwnd := callDupAck^[3] (ackCwnd initCwnd 1)

theorem firstRecovery_eq : firstRecovery =
    { window := 5
      ackThisRound := 0
      ssthresh := 2
      timeoutAck := 2 ^ 32 - 1
      lastAck := 1
      dupAck := 3
      state := ⟨.fastRecovRetrans, .ackFastRecov, .dupAckFastRecov⟩ } := by
  decide

/-- **Duplicates of the first ack open the window without bound.** -/
theorem window_replicate {a : AckPacket} (ha : a.ackNum = 1) (k : ℕ) (hk : 5 + k < 2 ^ 64) :
    batchCwnd (List.replicate (k + 4) a) initCwnd 0 =
      { firstRecovery with window := 5 + k } := by
  have hfirst : ackCwndStep (initCwnd, 0) a = (ackCwnd initCwnd 1, 1) := by
    rw [ackCwndStep, if_pos (Nat.zero_le _), ha]
  have hcount : dupCount (List.replicate (k + 3) a) 1 = k + 3 := by
    rw [dupCount, List.countP_replicate, if_pos (by simp [ha])]
  rw [batchCwnd, List.replicate_succ, List.foldl_cons, hfirst]
  have hbatch : batchCwnd (List.replicate (k + 3) a) (ackCwnd initCwnd 1) 1 = _ :=
    batchCwnd_of_le (fun x hx => by rw [List.eq_of_mem_replicate hx, ha]) (ackCwnd_lastAck _ _)
  rw [batchCwnd, hcount, Function.iterate_add_apply] at hbatch
  refine hbatch.trans ?_
  rw [show callDupAck^[3] (ackCwnd initCwnd 1) = firstRecovery from rfl,
    iterate_dupAckFastRecov (by rw [firstRecovery_eq]) k (by rw [firstRecovery_eq]; exact hk)]
  rw [firstRecovery_eq]

/-- The window after `4097` acks `1`, the last one in a batch of its own. -/
theorem window_overrun (a : AckPacket) (ha : a.ackNum = 1) :
    (confirmThreeDups (batchCwnd [a]
      (confirmThreeDups (batchCwnd (List.replicate 4096 a) initCwnd 0)).1 1)).1.window = 4098 := by
  have h1 : (confirmThreeDups (batchCwnd (List.replicate 4096 a) initCwnd 0)).1 =
      { firstRecovery with
        window := 4097
        state := ⟨.fastRecov, .ackFastRecov, .dupAckFastRecov⟩ } := by
    rw [window_replicate ha 4092 (by decide), firstRecovery_eq]
    rfl
  rw [h1, firstRecovery_eq, batchCwnd, List.foldl_cons, List.foldl_nil, ackCwndStep, ha]
  rfl

/-! ## The ring is overrun -/

/-- With the fin byte of packet `4098` the receiver is done. -/
theorem writeStep_overrun (file : List UInt8) (acks : List AckPacket) (packet : RdtPacket)
    (hfin : packet.finByte = 1) :
    ∃ r, writeStep ⟨⟨4000, 1⟩, slotTwo packet, 2, file, acks, .writing 3 2 0⟩ = r ∧
      r.mode = .writing 3 3 1 ∧ (writeStep r).mode = .finished ∧
      (writeStep r).file = file ++ packet.payloadBytes := by
  refine ⟨_, rfl, ?_, ?_, ?_⟩ <;>
  simp [writeStep, window, hfin, u32, writeToFile, RdtPacket.payloadBytes, slotTwo, waitForBreak]

/-- The packets `0`, `1` and `4098` of a file of `1444 * 4098 + 1` bytes. -/
theorem genuinePacket_overrun {file : List UInt8} (hlen : file.length = 5917513) :
    totalSeq file = 4099 ∧ (∃ d, genuinePacket file 0 = ⟨0, 0, maxPayloadLen, 0, d⟩) ∧
      (∃ d, genuinePacket file 1 = ⟨1, 0, maxPayloadLen, 0, d⟩) ∧
      ∃ d, genuinePacket file 4098 = ⟨4098, 0, 1, 1, d⟩ := by
  have hT : totalSeq file = 4099 := by
    simp only [totalSeq, initSenderStat, hlen]
    decide
  have hl : (initSenderStat file.length).lastChunk = 1 := by
    simp only [initSenderStat, hlen]
    decide
  exact ⟨hT, genuinePacket_inner (by rw [hT]; decide), genuinePacket_inner (by rw [hT]; decide),
    hl ▸ genuinePacket_last (by rw [hT])⟩

/-- Ack `1`, again and again. -/
theorem replicate_ack {k : ℕ} (hk : 0 < k) :
    List.replicate k (⟨0, 1, 0⟩ : AckPacket) ≠ [] ∧
      (∀ a ∈ List.replicate k (⟨0, 1, 0⟩ : AckPacket), a = ⟨0, 1, 0⟩) ∧
      ∀ base ≤ 1, maxAck (List.replicate k ⟨0, 1, 0⟩) base = 1 := by
  have hall : ∀ a ∈ List.replicate k (⟨0, 1, 0⟩ : AckPacket), a = ⟨0, 1, 0⟩ :=
    fun a ha => List.eq_of_mem_replicate ha
  have hmem : (⟨0, 1, 0⟩ : AckPacket) ∈ List.replicate k (⟨0, 1, 0⟩ : AckPacket) :=
    List.mem_replicate.mpr ⟨hk.ne', rfl⟩
  refine ⟨List.ne_nil_of_mem hmem, hall, fun base hb => le_antisymm ?_ (mem_le_maxAck base hmem)⟩
  exact maxAck_le hb fun a ha => by rw [hall a ha]

/-- **The sender sends packet `4098`** once ack `1` has come 4097 times, while the receiver has
accepted packet `0` only. -/
theorem overrun_sent {file : List UInt8} (hT : totalSeq file = 4099) {d0 : List UInt8}
    (hp0 : genuinePacket file 0 = ⟨0, 0, maxPayloadLen, 0, d0⟩) :
    ∃ snd m, Session.Reachable file ⟨4000, 1⟩ (fun _ _ => True)
        ⟨snd, .looping, ⟨⟨4000, 1⟩, Receiver.init.recQueue, 1, d0.take maxPayloadLen,
          [⟨0, 1, 0⟩], .receiving⟩⟩ ∧
      SenderOk m snd ∧ SendsFile file snd ∧ 4099 ≤ m := by
  obtain ⟨snd1, m1, h2, hok1, hf1, hw1, hc1, hb1, hm1⟩ := first_arrived (fun _ _ => True)
    (by rw [hT]; decide) hp0 trivial
  rw [hT] at hm1
  -- a batch with ack `1` 4096 times
  obtain ⟨hne, hall, hmax⟩ := replicate_ack (k := 4096) (by decide)
  obtain ⟨snd2, m2, hs2, hok2, hf2, hw2, hc2, hb2, -⟩ := iterate_all hf1 hok1 hw1 hne
    (List.length_replicate.le) fun a ha => by
      rw [hall a ha]
      show 1 ≤ m1
      omega
  rw [hb1, hmax 0 (by decide)] at hb2
  have h3 := Runs.next h2 (.iterate _ _ rfl (by rw [hb1, hf1.totalSeq, hT]; decide)
    (List.length_replicate.le) (fun a ha => List.mem_singleton.mpr (hall a ha)) hs2)
  -- and once more
  obtain ⟨hne', hall', hmax'⟩ := replicate_ack (k := 1) (by decide)
  have hm2 := hok2.stat.base
  obtain ⟨snd3, m3, hs3, hok3, hf3, hw3, hc3, hb3, hm3⟩ := iterate_all hf2 hok2 hw2 hne'
    (by decide) fun a ha => by
      rw [hall' a ha]
      exact hb2.symm.trans_le hm2
  have h4 := Runs.next h3 (.iterate _ _ rfl (by rw [hb2, hf2.totalSeq, hT]; decide)
    (by decide) (fun a ha => List.mem_singleton.mpr (hall' a ha)) hs3)
  rw [hb2, hc2, hc1, hb1] at hc3
  have hwin3 : snd3.stat.cwnd.window = 4098 := by
    rw [hc3, show List.replicate 1 (⟨0, 1, 0⟩ : AckPacket) = [⟨0, 1, 0⟩] from rfl]
    exact window_overrun ⟨0, 1, 0⟩ rfl
  rw [hb3, hb2, hmax' 1 (le_refl 1), hwin3, hT] at hm3
  exact ⟨snd3, m3, h4, hok3, hf3, by omega⟩

/-- **A run that overruns the ring**: packet `4098` arrives before packet `1`. -/
theorem overrun_run {file : List UInt8} (hlen : file.length = 5917513) :
    ∃ s, Session.Reachable file ⟨4000, 1⟩ (fun _ _ => True) s ∧
      s.receiver.mode = .finished ∧ s.receiver.file.length ≤ 2889 := by
  obtain ⟨hT, ⟨d0, hp0⟩, ⟨d1, hp1⟩, d2, hp2⟩ := genuinePacket_overrun hlen
  obtain ⟨snd, m, h, hok, hf, hm⟩ := overrun_sent hT hp0
  have h1 := h.recv rfl (hp2 ▸ hf.mem hok (by omega)) trivial (receive_beyond _ _ _
    (show 4098 % window = 2 by decide) (show 1 < 4098 by decide))
  have h2 := h1.recv rfl (hp1 ▸ hf.mem hok (by omega)) trivial (receive_one ..)
  obtain ⟨r, hr, hm1, hm2, hfile⟩ := writeStep_overrun
    (d0.take maxPayloadLen ++ d1.take maxPayloadLen)
    ([⟨0, 1, 0⟩] ++ [⟨0, 1, 1⟩] ++ [⟨0, 3, 1⟩]) ⟨0, 0, 1, 1, d2⟩ rfl
  have h3 := (h2.write rfl hr).write hm1 rfl
  refine ⟨_, h3, hm2, ?_⟩
  rw [hfile]
  simp only [RdtPacket.payloadBytes, List.length_append, List.length_take]
  unfold maxPayloadLen
  omega

/-- A file of 4099 packets, the last with one byte. -/
def overrunFile : List UInt8 := List.replicate 5917513 0

/-- **The overrun**: the receiver finishes with a file that is not the one sent. -/
theorem overrun : ¬ ∀ s, Session.Reachable overrunFile ⟨4000, 1⟩ (fun _ _ => True) s →
    s.receiver.file <+: overrunFile ∧
      (s.receiver.mode = .finished → s.receiver.file = overrunFile) := by
  intro h
  have hlen : overrunFile.length = 5917513 := List.length_replicate
  obtain ⟨s, hs, hm, hle⟩ := overrun_run hlen
  rw [(h s hs).2 hm, hlen] at hle
  omega

end NetworkingLearning.Transfer
