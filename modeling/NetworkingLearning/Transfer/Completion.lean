import NetworkingLearning.Transfer.Session

/-!
# When the sender is done (`sender_main.c:233`, `receiver_main.c:69-106`)

The sender leaves its loop when `sendBase` has reached `totalSeq`, which takes an ack of the last
packet. What does that say about the receiver?

`check_and_sent_buffer` sends its cumulative ack before it writes what it acks and before
`last_ack_num` follows ("send accumulative ack", "write buffer to file"), so the number acked last
(`Receiver.acked`) may be ahead of `last_ack_num` while the receiver is in its second loop. The
sender can be done while bytes of its file are not yet written. But then nothing more is needed: the
second loop waits for nothing, and comes to the fin byte. Nothing is assumed here about where
packets lie when they arrive.

Results:
* `completion`: `sendBase` and every ack sent are at most the number acked last; when the sender has
  left its loop the receiver is past the fin byte, or on its way there without waiting for anything.
* `acked_early`: a run in which the ack is ahead, and the sender done before the receiver.
-/

namespace NetworkingLearning.Transfer

open NetworkingLearning.Machine

section Completion

variable {pkts : ℕ → RdtPacket} {total w : ℕ} {A : Set ℕ}

/-- `last_ack_num` is behind the number acked last in the second loop only. -/
theorem ReceiverOk.last_le_acked {r : Receiver} (h : ReceiverOk pkts total w A r) :
    r.lastAckNum ≤ r.acked := by
  cases hm : r.mode with
  | writing ackNum ret retval =>
    rw [Receiver.acked_writing hm]
    exact (h.writing hm).last_le.trans (h.writing hm).ret_le
  | receiving => rw [Receiver.acked_receiving hm]
  | spinning => rw [Receiver.acked, hm]
  | finished => rw [Receiver.acked, hm]

/-- **The second loop runs to the fin byte** once the last packet is acked. -/
theorem writes_to_fin (hN : Numbered pkts total) {ret : ℕ} {retval : ℤ} {r : Receiver}
    (h : ReceiverOk pkts total w A r) (hm : r.mode = .writing total ret retval) :
    ∃ k, (writeStep^[k] r).mode = .finished ∧ (writeStep^[k] r).lastAckNum = total := by
  obtain ⟨r', hl, hok, hlast, hend⟩ :=
    writeLoop_writing hN (total - ret + 1) ret retval r h hm (Nat.lt_succ_self _)
  obtain ⟨⟨k, rfl⟩, -⟩ := writeLoop_iterate _ _ _ hl
  rcases hend with hf | ⟨hm', -⟩
  · exact ⟨k, hf, hlast⟩
  · -- with the last packet acked it does not return to `recvPacket`
    exact absurd (hlast ▸ (hok.receiving hm').last_lt) (lt_irrefl total)

end Completion

/-! ## A transfer of two packets -/

/-- Packet `0` arrives first. -/
theorem receive_zero (l : ℕ) (d : List UInt8) :
    writeStep (receive (datagram ⟨4000, 1⟩ ⟨0, 0, l, 0, d⟩) Receiver.init) =
      ⟨⟨4000, 1⟩, Receiver.init.recQueue, 1, d.take l, [⟨0, 1, 0⟩], .receiving⟩ := by
  rfl

/-- The start of a run: the first window is sent, and packet `0` arrives. -/
theorem first_arrived {file d : List UInt8} (arrives : Receiver → RdtPacket → Prop)
    (hT : 1 ≤ totalSeq file) (hp : genuinePacket file 0 = ⟨0, 0, maxPayloadLen, 0, d⟩)
    (harr : arrives Receiver.init (genuinePacket file 0)) :
    ∃ snd m, Session.Reachable file ⟨4000, 1⟩ arrives ⟨snd, .looping, ⟨⟨4000, 1⟩,
        Receiver.init.recQueue, 1, d.take maxPayloadLen, [⟨0, 1, 0⟩], .receiving⟩⟩ ∧
      SenderOk m snd ∧ SendsFile file snd ∧ snd.sockWritable = true ∧
      snd.stat.cwnd = initCwnd ∧ snd.stat.sendBase = 0 ∧ (totalSeq file ≤ m ∨ 4 ≤ m) := by
  obtain ⟨snd, m, hs, hok, hf, hw, hc, hb, hm⟩ := start_all file
  rw [show initCwnd.window = 4 by decide] at hm
  have h1 : Session.Reachable file ⟨4000, 1⟩ arrives ⟨snd, .looping, Receiver.init⟩ :=
    Runs.next (Runs.start rfl) (.start _ rfl hs)
  have h2 := h1.recv rfl (hf.mem hok (by omega)) harr rfl
  rw [hp] at h2
  exact ⟨snd, m, h2.write rfl (receive_zero maxPayloadLen d), hok, hf, hw, hc, hb, hm⟩

/-- Packet `1` with the fin byte after it. -/
theorem receive_fin (l : ℕ) (d file : List UInt8) (rq : ReceiverQ) (acks : List AckPacket) :
    receive (datagram ⟨4000, 1⟩ ⟨1, 0, l, 1, d⟩) ⟨⟨4000, 1⟩, rq, 1, file, acks, .receiving⟩ =
      waitForBreak ⟨⟨4000, 1⟩, rq, 2, file ++ d.take l, acks, .receiving⟩ := by
  simp [receive, recvPacket, datagram, u32, writeToFile]

/-- Both packets arrive in order, and the sender gets the last ack. -/
theorem twoPackets_run (arrives : Receiver → RdtPacket → Prop)
    (harr : ∀ r p, p.seqNum ≤ 1 → arrives r p) :
    ∃ s, Session.Reachable twoPackets ⟨4000, 1⟩ arrives s ∧ s.receiver.mode = .finished ∧
      s.sender.stat.totalSeq = 2 ∧ s.sender.stat.sendBase = 2 := by
  have hT : totalSeq twoPackets = 2 := by decide +kernel
  obtain ⟨d0, hp0⟩ : ∃ d, genuinePacket twoPackets 0 = _ :=
    genuinePacket_inner (by rw [hT]; decide)
  obtain ⟨d1, hp1⟩ : ∃ d, genuinePacket twoPackets 1 = _ := genuinePacket_last (by rw [hT])
  obtain ⟨snd, m, h2, hok, hf, hw, -, hb, hm⟩ :=
    first_arrived arrives (by rw [hT]; decide) hp0 (harr _ _ (Nat.zero_le 1))
  rw [hT] at hm
  have h3 := h2.recv rfl (hp1 ▸ hf.mem hok (by omega)) (harr _ _ (le_refl 1)) (receive_fin ..)
  obtain ⟨snd', m', hs', -, hf', -, -, hb', -⟩ := iterate_all hf hok hw
    (List.cons_ne_nil (⟨0, 2, 1⟩ : AckPacket) []) (by decide) fun a ha => by
      rw [List.mem_singleton.mp ha]
      show 2 ≤ m
      omega
  have h4 := Runs.next h3 (.iterate _ _ rfl (by rw [hb, hf.totalSeq, hT]; decide) (by decide)
    (fun a ha => List.mem_append_right _ (List.mem_replicate.mpr ⟨by decide,
      List.mem_singleton.mp ha⟩)) hs')
  refine ⟨_, h4, rfl, hf'.totalSeq.trans hT, ?_⟩
  rw [hb', hb]
  rfl

/-- **Completion.** `sendBase`, `last_ack_num` and every ack sent are at most the number the
receiver acked last, and that is at most `totalSeq`. When the sender has left its loop, the receiver
has left its own by the fin byte with `last_ack_num` at `totalSeq`, or it has acked `totalSeq`, is
in the second loop of `check_and_sent_buffer` and gets there without another datagram. -/
theorem completion (file : List UInt8) (h1 : 1 ≤ file.length) (h2 : file.length < 2 ^ 32)
    (addr : SockAddr) (s : Session)
    (h : Session.Reachable file addr (fun _ _ => True) s) :
    (s.sender.stat.sendBase ≤ s.receiver.acked ∧ s.receiver.lastAckNum ≤ s.receiver.acked ∧
      s.receiver.acked ≤ s.sender.stat.totalSeq ∧
      ∀ a ∈ s.receiver.acks, a.ackNum ≤ s.receiver.acked) ∧
    (¬ s.sender.stat.sendBase < s.sender.stat.totalSeq →
      (s.receiver.mode = .finished ∧ s.receiver.lastAckNum = s.sender.stat.totalSeq) ∨
      (∃ ret retval, s.receiver.mode = .writing s.sender.stat.totalSeq ret retval) ∧
        ∃ k, (writeStep^[k] s.receiver).mode = .finished ∧
          (writeStep^[k] s.receiver).lastAckNum = s.sender.stat.totalSeq) := by
  obtain ⟨hT, -⟩ := totalSeq_spec h1 h2
  obtain ⟨m, A, hok⟩ := sessionOk_runs (w := totalSeq file) hT (fun r p _ hp => by omega) h
  have hbase := hok.base
  have htot := hok.acked_le_total
  rw [hok.sends.totalSeq]
  refine ⟨⟨hbase, hok.receiver.last_le_acked, htot, hok.receiver.acks⟩, fun hdone => ?_⟩
  have hacked : s.receiver.acked = totalSeq file := by omega
  cases hm : s.receiver.mode with
  | receiving =>
    obtain ⟨hlt, heq⟩ := hok.receiving hm
    omega
  | writing ackNum ret retval =>
    obtain rfl : ackNum = totalSeq file := by rw [← hacked, Receiver.acked_writing hm]
    exact Or.inr ⟨⟨ret, retval, rfl⟩,
      writes_to_fin (numbered_genuinePacket file) hok.receiver hm⟩
  | spinning =>
    have hlt := (hok.receiver.spinning hm).1
    rw [Receiver.acked, hm] at hacked
    simp only at hacked
    omega
  | finished =>
    rw [Receiver.acked, hm] at hacked
    exact Or.inl ⟨rfl, hacked⟩

theorem completion_twoPackets : ∃ s : Session, s.sender.stat.sendBase = 2 ∧
    s.sender.stat.sendBase ≤ s.receiver.acked ∧ s.receiver.acked ≤ s.sender.stat.totalSeq ∧
    s.receiver.mode = .finished ∧ s.receiver.lastAckNum = s.sender.stat.totalSeq := by
  obtain ⟨s, hs, hm, hT, hb⟩ := twoPackets_run (fun _ _ => True) fun _ _ _ => trivial
  obtain ⟨⟨hle, -, htot, -⟩, hdone⟩ :=
    completion twoPackets (by decide +kernel) (by decide +kernel) ⟨4000, 1⟩ s hs
  rcases hdone (by rw [hb, hT]; decide) with ⟨-, hlast⟩ | ⟨⟨ret, retval, hw⟩, -⟩
  · exact ⟨s, hb, hle, htot, hm, hlast⟩
  · exact absurd (hm.symm.trans hw) Mode.noConfusion

/-! ## The ack is ahead -/

/-- The ring with a packet in slot `2` and no other. -/
def slotTwo (packet : RdtPacket) : ReceiverQ :=
  ⟨Function.update (fun _ => RdtPacket.zero) 2 packet, Function.update (fun _ => 0) 2 1⟩

section SlotTwo

variable (l : ℕ) (d file : List UInt8) (acks : List AckPacket) (packet : RdtPacket)

/-- A packet of slot `2` arrives before packet `1`. -/
theorem receive_beyond (hseq : packet.seqNum % window = 2) (hlt : 1 < packet.seqNum) :
    receive (datagram ⟨4000, 1⟩ packet)
        ⟨⟨4000, 1⟩, Receiver.init.recQueue, 1, file, acks, .receiving⟩ =
      ⟨⟨4000, 1⟩, slotTwo packet, 1, file, acks ++ [⟨0, 1, packet.finByte⟩], .receiving⟩ := by
  simp [receive, recvPacket, datagram, sendAckPacket, mapToQueue, buildAckPacket, slotTwo,
    Receiver.init, hseq, hlt, (Nat.zero_lt_of_lt hlt).ne', hlt.ne']

/-- With packet `1` it is acked, and `last_ack_num` is still `2`. -/
theorem receive_one :
    receive (datagram ⟨4000, 1⟩ ⟨1, 0, l, 0, d⟩)
        ⟨⟨4000, 1⟩, slotTwo packet, 1, file, acks, .receiving⟩ =
      ⟨⟨4000, 1⟩, slotTwo { packet with seqNum := packet.ackNum }, 2, file ++ d.take l,
        acks ++ [⟨0, 3, packet.finByte⟩], .writing 3 2 0⟩ := by
  have hscan : ackScan (Function.update (fun _ => 0) 2 1) window 2 = some 3 := by
    simp [window, ackScan, u32]
  simp [receive, recvPacket, datagram, u32, checkAndSentBuffer, slotTwo, hscan, sub32,
    buildAckPacket, writeToFile]
  simp [window]

end SlotTwo

/-- A file of two full packets and a third with one byte. -/
def threePackets : List UInt8 := List.replicate 2889 0

/-- Packets `0`, `2` and `1` arrive in this order; the receiver acks `3` and still has to write
packet `2` when the sender gets the ack. -/
theorem acked_early_run : ∃ s, Session.Reachable threePackets ⟨4000, 1⟩ (fun _ _ => True) s ∧
    s.sender.stat.totalSeq = 3 ∧ s.sender.stat.sendBase = 3 ∧ s.receiver.lastAckNum = 2 ∧
    s.receiver.mode = .writing 3 2 0 := by
  have hT : totalSeq threePackets = 3 := by decide +kernel
  obtain ⟨d0, hp0⟩ : ∃ d, genuinePacket threePackets 0 = _ :=
    genuinePacket_inner (by rw [hT]; decide)
  obtain ⟨d1, hp1⟩ : ∃ d, genuinePacket threePackets 1 = _ :=
    genuinePacket_inner (by rw [hT]; decide)
  obtain ⟨d2, hp2⟩ : ∃ d, genuinePacket threePackets 2 = _ := genuinePacket_last (by rw [hT])
  obtain ⟨snd, m, h2, hok, hf, hw, -, hb, hm⟩ := first_arrived (fun _ _ => True)
    (by rw [hT]; decide) hp0 trivial
  rw [hT] at hm
  have h3 := h2.recv rfl (hp2 ▸ hf.mem hok (by omega)) trivial
    (receive_beyond _ _ _ rfl (show 1 < 2 by decide))
  have h4 := h3.recv rfl (hp1 ▸ hf.mem hok (by omega)) trivial (receive_one ..)
  -- the ack `3`
  obtain ⟨snd', m', hs', -, hf', -, -, hb', -⟩ := iterate_all hf hok hw
    (List.cons_ne_nil (⟨0, 3, 1⟩ : AckPacket) []) (by decide) fun a ha => by
      rw [List.mem_singleton.mp ha]
      show 3 ≤ m
      omega
  have h5 := Runs.next h4 (.iterate _ _ rfl (by rw [hb, hf.totalSeq, hT]; decide) (by decide)
    (fun a ha => List.mem_append_right _ ha) hs')
  refine ⟨_, h5, hf'.totalSeq.trans hT, ?_, rfl, rfl⟩
  rw [hb', hb]
  rfl

/-- **The ack is ahead**, and the sender is done before the receiver. -/
theorem acked_early : ¬ ∀ s, Session.Reachable threePackets ⟨4000, 1⟩ (fun _ _ => True) s →
    (s.sender.stat.sendBase ≤ s.receiver.lastAckNum ∧
      s.receiver.lastAckNum ≤ s.sender.stat.totalSeq ∧
      ∀ a ∈ s.receiver.acks, a.ackNum ≤ s.receiver.lastAckNum) ∧
    (¬ s.sender.stat.sendBase < s.sender.stat.totalSeq →
      s.receiver.mode = .finished ∧ s.receiver.lastAckNum = s.sender.stat.totalSeq) := by
  intro h
  obtain ⟨s, hs, hT, hb, hlast, hm⟩ := acked_early_run
  obtain ⟨⟨hle, -⟩, -⟩ := h s hs
  rw [hb, hlast] at hle
  exact absurd hle (by decide)

end NetworkingLearning.Transfer
