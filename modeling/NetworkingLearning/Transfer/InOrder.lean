import NetworkingLearning.Transfer.Network

/-!
# Pipes that lose nothing (`sender_main.c:114-198`, `receiver_main.c:186-231`)

The two programs with a network that delivers every packet and every ack once and in order, and
before the timer expires (`Piped`: the system, and how many packets have arrived and how many acks
have been read). `sendto` may still fail with `EAGAIN`, and a batch is any number of the acks that
wait. `Piped.Step.step` says that these are runs of the system.

Every ack is then one more than the one before, until the receiver finishes and repeats the last
one, so `ackCwnd` sees no duplicate that could ask for a retransmission (`Counting`).

* `InOrder` is the state of the receiver: the ring is empty at all times.
* `Streaming` is the state of the sender: what was sent is a row from `0` on, and no retransmission
  is pending.
* `Flowing` ties them together, with the packets and acks under way.

Results:
* `inOrder_receive`, `inOrder_writeStep`: the ring stays empty.
* `batchCwnd_counting`: what a batch of acks in a row preserves.
* `process_counting`, `streaming_process`: a batch leaves no retransmission behind.
* `sent_once`: the packets sent are those of the file in order, each once.
-/

namespace NetworkingLearning.Transfer

open NetworkingLearning.Machine

/-- The system, with the number of packets that have arrived and the number of acks read. -/
structure Piped where
  session : Session
  arrived : ℕ
  read : ℕ

/-- The start, for a file. -/
def Piped.init (file : List UInt8) : Piped := ⟨Session.init file, 0, 0⟩

/-- The steps: the next packet arrives, or the next acks are read. -/
inductive Piped.Step (file : List UInt8) (addr : SockAddr) : Piped → Piped → Prop
  | start {s : Session} {i j : ℕ} {sender : Sender} (res : ℕ → SendtoResult)
      (hp : s.phase = .starting) (h : sendpkts file res s.sender = some (sender, 0)) :
      Step file addr ⟨s, i, j⟩ ⟨{ s with sender := sender, phase := .looping }, i, j⟩
  | iterate {s : Session} {i j : ℕ} {sender : Sender} (acks : List AckPacket) (writable : Bool)
      (res : ℕ → SendtoResult) (hp : s.phase = .looping)
      (hb : s.sender.stat.sendBase < s.sender.stat.totalSeq) (hlen : acks.length ≤ window)
      (hacks : acks <+: s.receiver.acks.drop j)
      (h : iterate file res ⟨acks, writable, none⟩ s.sender = some (sender, 0)) :
      Step file addr ⟨s, i, j⟩ ⟨{ s with sender := sender }, i, j + acks.length⟩
  | exit {s : Session} {i j : ℕ} (hp : s.phase = .looping)
      (hb : ¬ s.sender.stat.sendBase < s.sender.stat.totalSeq) :
      Step file addr ⟨s, i, j⟩ ⟨{ s with phase := .closing }, i, j⟩
  | recv {s : Session} {i j : ℕ} (packet : RdtPacket) (hm : s.receiver.mode = .receiving)
      (hp : s.sender.packets[i]? = some packet) :
      Step file addr ⟨s, i, j⟩
        ⟨{ s with receiver := receive (datagram addr packet) s.receiver }, i + 1, j⟩
  | write {s : Session} {i j ackNum ret : ℕ} {retval : ℤ}
      (hm : s.receiver.mode = .writing ackNum ret retval) :
      Step file addr ⟨s, i, j⟩ ⟨{ s with receiver := writeStep s.receiver }, i, j⟩

/-- They are steps of the system. -/
theorem Piped.Step.step {file : List UInt8} {addr : SockAddr} {p p' : Piped}
    (h : Piped.Step file addr p p') :
    Session.Step file addr (fun _ _ => True) p.session p'.session := by
  cases h with
  | start res hp hs => exact .start res hp hs
  | iterate acks writable res hp hb hlen hacks hs =>
    exact .iterate _ res hp hb hlen (fun a ha => List.mem_of_mem_drop (hacks.subset ha)) hs
  | exit hp hb => exact .exit hp hb
  | recv packet hm hp =>
    exact .recv packet hm (List.mem_append_left _ (List.mem_of_getElem? hp)) trivial
  | write hm => exact .write hm

/-! ## Acks in a row -/

/-- The acks are numbered from `j + 1` on, and with `total` from there on. -/
def Counting (total : ℕ) : ℕ → List AckPacket → Prop
  | _, [] => True
  | j, a :: acks => a.ackNum = min (j + 1) total ∧ Counting total (j + 1) acks

section Counting

variable {total j : ℕ} {acks acks' : List AckPacket}

theorem counting_append : Counting total j (acks ++ acks') ↔
    Counting total j acks ∧ Counting total (j + acks.length) acks' := by
  induction acks generalizing j with
  | nil => simp [Counting]
  | cons a acks ih =>
    rw [List.cons_append, Counting, Counting, ih, and_assoc, List.length_cons,
      show j + 1 + acks.length = j + (acks.length + 1) by omega]

theorem counting_replicate {a : AckPacket} (ha : a.ackNum = total) (k : ℕ)
    (hj : total ≤ j + 1) : Counting total j (List.replicate k a) := by
  induction k generalizing j with
  | zero => trivial
  | succ k ih => exact ⟨by omega, ih (by omega)⟩

/-- What is read next. -/
theorem Counting.next (h : Counting total 0 acks) (hj : j ≤ acks.length)
    (hnext : acks' <+: acks.drop j) : Counting total j acks' := by
  obtain ⟨rest, hrest⟩ := hnext
  rw [← List.take_append_drop j acks, ← hrest, counting_append, counting_append,
    List.length_take, Nat.min_eq_left hj, Nat.zero_add] at h
  exact h.2.1

theorem Counting.pos (h : Counting total j acks) (hT : 0 < total) : ∀ a ∈ acks, 1 ≤ a.ackNum := by
  induction acks generalizing j with
  | nil => exact fun a ha => absurd ha List.not_mem_nil
  | cons b acks ih =>
    refine List.forall_mem_cons.mpr ⟨?_, ih h.2⟩
    rw [h.1]
    omega

theorem Counting.maxAck (h : Counting total j acks) :
    maxAck acks (min j total) = min (j + acks.length) total := by
  induction acks generalizing j with
  | nil => rfl
  | cons a acks ih =>
    rw [maxAck_cons, h.1, show max (min j total) (min (j + 1) total) = min (j + 1) total by omega,
      ih h.2, List.length_cons, show j + 1 + acks.length = j + (acks.length + 1) by omega]

end Counting

/-! ## The receiver -/

/-- The receiver after the packets below `i` have come in order. -/
structure InOrder (file : List UInt8) (addr : SockAddr) (i : ℕ) (r : Receiver) : Prop where
  peer : 0 < i → r.siOther = addr
  ring : ∀ j, r.recQueue.buflen j ≠ 1
  last : r.lastAckNum = i
  bytes : r.file = payloads (genuinePacket file) i
  counting : Counting (totalSeq file) 0 r.acks
  acks : ∀ a ∈ r.acks, a.ackNum ≤ i
  mode : ((r.mode = .receiving ∨ r.mode = .writing i i 0) ∧ i < totalSeq file ∧
    r.acks.length = i) ∨ (r.mode = .finished ∧ i = totalSeq file)

section Receiver

variable {file : List UInt8} {addr : SockAddr} {i : ℕ} {r : Receiver}

theorem inOrder_init (hT : 0 < totalSeq file) : InOrder file addr 0 Receiver.init where
  peer h := absurd h (Nat.lt_irrefl 0)
  ring _ := show (0 : ℕ) ≠ 1 by decide
  last := rfl
  bytes := rfl
  counting := trivial
  acks a ha := absurd ha List.not_mem_nil
  mode := Or.inl ⟨Or.inl rfl, hT, rfl⟩

/-- The packet `last_ack_num`, once it is accepted. -/
theorem receive_next {d : Datagram} {peer : SockAddr} (hm : r.mode = .receiving)
    (hacc : recvPacket d r.siOther = (0, peer)) (hseq : d.packet.seqNum = r.lastAckNum) :
    receive d r =
      if d.packet.finByte = 1 then
        waitForBreak { r with
          siOther := peer
          file := writeToFile r.file d.packet
          lastAckNum := u32 (r.lastAckNum + 1) }
      else
        checkAndSentBuffer { r with
          siOther := peer
          file := writeToFile r.file d.packet
          lastAckNum := u32 (r.lastAckNum + 1) } d.packet := by
  obtain ⟨siOther, rq, last, file, acks, mode⟩ := r
  obtain rfl : mode = .receiving := hm
  simp only at hacc hseq
  simp only [receive, hacc, hseq, ne_eq, not_true_eq_false, if_false, if_true]

/-- **`check_and_sent_buffer` with nothing in the ring** acks `last_ack_num`. -/
theorem checkAndSentBuffer_empty (hring : ∀ j, r.recQueue.buflen j ≠ 1) (pkt : RdtPacket) :
    checkAndSentBuffer r pkt = { r with
      acks := r.acks ++ [(buildAckPacket ⟨0, 0, 0⟩ pkt r.lastAckNum).1]
      mode := .writing r.lastAckNum r.lastAckNum 0 } := by
  have hscan : ackScan r.recQueue.buflen window r.lastAckNum = some r.lastAckNum := by
    unfold ackScan
    rw [if_neg (hring _)]
  rw [checkAndSentBuffer, hscan]
  simp only [gt_iff_lt, lt_irrefl, if_false]

/-- The packet is accepted: it is the first one, or its sender is the peer. -/
theorem InOrder.accepted (h : InOrder file addr i r) :
    recvPacket (datagram addr (genuinePacket file i)) r.siOther = (0, addr) := by
  by_cases h0 : i = 0
  · rw [recvPacket_zero rfl h0]
    rfl
  · rw [recvPacket_ne_zero rfl h0, h.peer (Nat.pos_of_ne_zero h0)]
    exact congrArg (·, addr) (if_pos rfl)

/-- **The next packet** goes to the file; the first loop of `check_and_sent_buffer` finds nothing
behind it. -/
theorem inOrder_receive (h : InOrder file addr i r) (hm : r.mode = .receiving) :
    InOrder file addr (i + 1) (receive (datagram addr (genuinePacket file i)) r) := by
  obtain ⟨-, hlt, hlen⟩ : (r.mode = .receiving ∨ _) ∧ _ :=
    h.mode.resolve_right fun hf => Mode.noConfusion (hm.symm.trans hf.1)
  have hT := totalSeq_lt file
  have hbytes : writeToFile r.file (genuinePacket file i) =
      payloads (genuinePacket file) (i + 1) := by
    rw [h.bytes, payloads_succ]
    rfl
  have hacks : ∀ new : List AckPacket, (∀ a ∈ new, a.ackNum = i + 1) →
      ∀ a ∈ r.acks ++ new, a.ackNum ≤ i + 1 := fun new hnew =>
    acks_append h.acks (Nat.le_succ i) hnew
  have hfin : (genuinePacket file i).finByte = 1 ↔ i + 1 = totalSeq file := genuinePacket_finByte
  rw [receive_next hm h.accepted h.last.symm, h.last, u32_of_lt (show i + 1 < 2 ^ 32 by omega)]
  split
  · rename_i hf
    have htotal := hfin.mp hf
    refine ⟨fun _ => rfl, h.ring, rfl, hbytes, ?_, ?_, Or.inr ⟨rfl, htotal⟩⟩
    · refine counting_append.mpr ⟨h.counting, counting_replicate htotal 45 ?_⟩
      show totalSeq file ≤ 0 + r.acks.length + 1
      omega
    · exact hacks _ fun a ha => congrArg AckPacket.ackNum (List.eq_of_mem_replicate ha)
  · rename_i hf
    have hne : i + 1 ≠ totalSeq file := fun he => hf (hfin.mpr he)
    rw [checkAndSentBuffer_empty (by exact h.ring)]
    refine ⟨fun _ => rfl, h.ring, rfl, hbytes, ?_, ?_, Or.inl ⟨Or.inr rfl, by omega, ?_⟩⟩
    · refine counting_append.mpr ⟨h.counting, ?_, trivial⟩
      show i + 1 = min (0 + r.acks.length + 1) (totalSeq file)
      omega
    · exact hacks _ fun a ha => congrArg AckPacket.ackNum (List.mem_singleton.mp ha)
    · rw [List.length_append, hlen]
      rfl

/-- **The second loop of `check_and_sent_buffer`** ends at once. -/
theorem inOrder_writeStep (h : InOrder file addr i r) {ackNum ret : ℕ} {retval : ℤ}
    (hm : r.mode = .writing ackNum ret retval) : InOrder file addr i (writeStep r) := by
  obtain ⟨hmode, hlt, hlen⟩ := h.mode.resolve_right fun hf =>
    Mode.noConfusion (hm.symm.trans hf.1)
  have hwr := hmode.resolve_left fun hf => Mode.noConfusion (hm.symm.trans hf)
  have heq : writeStep r = { r with lastAckNum := i, mode := .receiving } := by
    simp only [writeStep, hwr, if_neg (h.ring _)]
    exact if_neg (by decide)
  rw [heq]
  exact ⟨h.peer, h.ring, rfl, h.bytes, h.counting, h.acks, Or.inl ⟨Or.inl rfl, hlt, hlen⟩⟩

end Receiver

/-! ## The sender -/

section Batches

variable {cwnd : Cwnd} {base total j : ℕ} {acks : List AckPacket}

/-- An ack that is no duplicate asks for no retransmission. -/
theorem callAck_label (h : cwnd.state.state ≠ .fastRecovRetrans) (ackNum : ℕ) :
    (callAck cwnd ackNum).state.state ≠ .fastRecovRetrans := by
  unfold callAck
  split
  · simp only [ackSlowStart]
    split
    · exact Label.noConfusion
    · exact h
  · simp only [ackCongAvoid]
    split <;> exact h
  · exact Label.noConfusion

/-- The next ack of a row is no duplicate. -/
theorem Known.next_ne (hk : Known cwnd j) (_ : j + 1 < 2 ^ 32 - 1) : j + 1 ≠ cwnd.lastAck := by
  by_cases h0 : j = 0
  · rw [(hk.first h0).1]
    omega
  · rw [hk.last h0]
    omega

/-- **Acks in a row**: what each of them preserves, a batch of them does. -/
theorem batchCwnd_counting {P : ℕ → Cwnd → Prop}
    (hstep : ∀ {k : ℕ} {c : Cwnd}, k + 1 < total → Known c k → P k c → ackCwnd c (k + 1) =
      { callAck c (k + 1) with lastAck := k + 1 } → P (k + 1) (ackCwnd c (k + 1)))
    (hk : Known cwnd j) (h : P j cwnd) (hc : Counting total j acks)
    (hlt : j + acks.length < total) (hT : total < 2 ^ 32) :
    P (j + acks.length) (batchCwnd acks cwnd j) := by
  induction acks generalizing cwnd j with
  | nil => exact h
  | cons a acks ih =>
    obtain ⟨ha, hc⟩ := hc
    rw [List.length_cons] at hlt ⊢
    have hack : a.ackNum = j + 1 := by omega
    have heq : ackCwnd cwnd (j + 1) = { callAck cwnd (j + 1) with lastAck := j + 1 } := by
      rw [ackCwnd, if_neg (hk.next_ne (by omega))]
    rw [batchCwnd, List.foldl_cons, ackCwndStep, hack, if_pos (show j + 1 ≥ j by omega),
      show j + (acks.length + 1) = j + 1 + acks.length by omega]
    exact ih (known_ackCwnd hk (Nat.le_add_left 1 j)) (hstep (by omega) hk h heq) hc (by omega)

/-- They ask for no retransmission. -/
theorem label_batchCwnd (hk : Known cwnd j) (hl : cwnd.state.state ≠ .fastRecovRetrans)
    (hc : Counting total j acks) (hlt : j + acks.length < total) (hT : total < 2 ^ 32) :
    (batchCwnd acks cwnd j).state.state ≠ .fastRecovRetrans :=
  batchCwnd_counting (P := fun _ c => c.state.state ≠ .fastRecovRetrans)
    (fun {k _} _ _ hl heq => heq ▸ callAck_label hl (k + 1)) hk hl hc hlt hT

end Batches

/-- The sender after the packets below `m` and `j` acks. -/
structure Streaming (file : List UInt8) (m j : ℕ) (snd : Sender) : Prop where
  ok : SenderOk m snd
  total : snd.stat.totalSeq = totalSeq file
  chunk : snd.stat.lastChunk = (initSenderStat file.length).lastChunk
  packets : snd.packets = (List.range m).map (genuinePacket file)
  next : u32 (snd.stat.lastSent + 1) = m
  retrans : snd.stat.sendBase < totalSeq file → snd.stat.retrans = false
  known : Known snd.stat.cwnd snd.stat.sendBase
  base : snd.stat.sendBase = min j (totalSeq file)

section Sender

variable {file : List UInt8} {m j : ℕ} {snd snd' : Sender} {res : ℕ → SendtoResult} {ret : ℤ}

theorem streaming_init (file : List UInt8) : Streaming file 0 0 (Sender.init file.length) where
  ok := senderOk_init
  total := rfl
  chunk := rfl
  packets := rfl
  next := show u32 (2 ^ 32 - 1 + 1) = 0 by decide
  retrans _ := rfl
  known := known_initCwnd
  base := (Nat.zero_min _).symm

/-- **The next packet is the one after the last**, as long as acks are missing. -/
theorem Streaming.getNextSeq_eq (h : Streaming file m j snd)
    (hb : snd.stat.sendBase < totalSeq file) : getNextSeq snd.stat = m := by
  have hbase := h.ok.stat.base
  have hT := h.ok.stat.total
  have hm := h.ok.stat.sent_le
  have hnext := h.next
  rw [getNextSeq, h.retrans hb]
  split
  · rename_i hlt
    have hlt := hlt.resolve_left Bool.false_ne_true
    rw [u32_of_lt (by omega)] at hnext
    omega
  · exact hnext

/-- A packet is sent. -/
theorem Streaming.sentNext (h : Streaming file m j snd)
    (ha : allowSend snd.stat (getNextSeq snd.stat) = true) :
    Streaming file (m + 1) j (snd.sentNext file) := by
  have hle := (statOk_getNextSeq h.ok.stat).1
  have hlt := lt_totalSeq ha
  rw [h.total] at hlt
  have hb : snd.stat.sendBase < totalSeq file := by omega
  have hm := h.getNextSeq_eq hb
  have hT := totalSeq_lt file
  have hok := h.ok.sent_one file ha
  rw [hm, max_eq_right (Nat.le_succ m)] at hok
  obtain ⟨hc, hbase, htotal, hchunk, -, hlast, hretrans⟩ := updateNextSeq_frame
    { snd.stat with timer := startTimerIfNotRunning snd.stat.timer } (getNextSeq snd.stat)
  refine ⟨hok, htotal.trans h.total, hchunk.trans h.chunk, ?_, ?_, fun _ => ?_, ?_, ?_⟩
  · rw [Sender.packets_sentNext, h.packets, List.range_succ, List.map_append, hm]
    exact congrArg _ (congrArg (fun p => [p]) (buildPacket_eq h.total h.chunk))
  · rw [hm] at hlast hlt
    rw [show (snd.sentNext file).stat.lastSent = m by rw [← hlast, ← hm]; rfl]
    exact u32_of_lt (by omega)
  · rw [show (snd.sentNext file).stat.retrans = _ from hretrans, h.retrans hb, Bool.false_and]
  · rw [show (snd.sentNext file).stat.cwnd = _ from hc,
      show (snd.sentNext file).stat.sendBase = _ from hbase]
    exact h.known
  · exact hbase.trans h.base

/-- **`sendpkts`** goes on where it left off. -/
theorem streaming_sendpkts (h : Streaming file m j snd)
    (hs : sendpkts file res snd = some (snd', ret)) : ∃ m' ≥ m, Streaming file m' j snd' :=
  sendpkts_invariant (P := fun x => ∃ m' ≥ m, Streaming file m' j x)
    (fun _ ⟨m', hm, hx⟩ => ⟨m', hm, ⟨⟨hx.ok.stat, hx.ok.sent, hx.ok.wire⟩, hx.total, hx.chunk,
      hx.packets, hx.next, hx.retrans, hx.known, hx.base⟩⟩)
    (fun _ ⟨m', hm, hx⟩ ha => ⟨m' + 1, Nat.le_succ_of_le hm, hx.sentNext ha⟩)
    ⟨m, le_refl m, h⟩ hs

theorem merge_lastSent (stat : SenderStat) (pending : DiffStat) (hasTimeout : Bool) :
    (merge stat pending hasTimeout).lastSent = stat.lastSent := by
  unfold merge
  simp only
  split_ifs <;> rfl

@[simp] theorem process_lastSent (ev : Events) (stat : SenderStat) :
    (process ev stat).lastSent = stat.lastSent := by
  obtain ⟨timer, hread⟩ := readEvents_eq ev stat
  simp only [process, hread]
  split
  · obtain ⟨recvFin, hack⟩ := ackAll_eq ev.acks { stat with timer := timer }
    rw [merge_lastSent, hack]
  · rfl

/-- A batch of acks in a row, and more to come. -/
theorem process_counting {stat : SenderStat} {total : ℕ} {acks : List AckPacket} (writable : Bool)
    (hk : Known stat.cwnd stat.sendBase) (hl : stat.cwnd.state.state ≠ .fastRecovRetrans)
    (hc : Counting total stat.sendBase acks) (hlt : stat.sendBase + acks.length < total)
    (hT : total < 2 ^ 32) (hr : stat.retrans = false) :
    (process ⟨acks, writable, none⟩ stat).retrans = false ∧
      (process ⟨acks, writable, none⟩ stat).cwnd = batchCwnd acks stat.cwnd stat.sendBase := by
  obtain rfl | hne := eq_or_ne acks []
  · exact ⟨hr, rfl⟩
  · have hpos := List.length_pos_iff.mpr hne
    obtain ⟨recvFin, hack⟩ := ackAll_eq acks stat
    have hproc : process ⟨acks, writable, none⟩ stat =
        merge (ackAll acks stat).1 (ackAll acks stat).2 false :=
      if_pos (Or.inl hpos.ne')
    have hlabel := label_batchCwnd hk hl hc hlt hT
    have hmax := hc.maxAck
    rw [min_eq_left (by omega), min_eq_left hlt.le] at hmax
    rw [hproc, hack, confirmThreeDups, if_neg hlabel,
      merge_advanced rfl (show stat.sendBase < maxAck acks stat.sendBase by omega)]
    exact ⟨rfl, rfl⟩

/-- **A batch of acks in a row** leaves no retransmission behind. -/
theorem streaming_process (h : Streaming file m j snd) {acks : List AckPacket}
    (hc : Counting (totalSeq file) j acks) (hlen : acks.length ≤ window)
    (hacks : ∀ a ∈ acks, a.ackNum ≤ m) (hb : snd.stat.sendBase < totalSeq file)
    (writable sockWritable : Bool) :
    Streaming file m (j + acks.length) { snd with
      stat := process ⟨acks, writable, none⟩ snd.stat
      sockWritable := sockWritable } := by
  obtain ⟨hbase, htotal, hchunk, -⟩ := process_frame ⟨acks, writable, none⟩ snd.stat
  have hbase' : (process ⟨acks, writable, none⟩ snd.stat).sendBase =
      min (j + acks.length) (totalSeq file) := by
    rw [hbase, h.base]
    exact hc.maxAck
  have hj : snd.stat.sendBase = j := by
    have := h.base
    omega
  refine ⟨⟨statOk_process h.ok.stat hlen hacks, h.ok.sent, h.ok.wire⟩, htotal.trans h.total,
    hchunk.trans h.chunk, h.packets, ?_, fun hlt => ?_,
    known_process h.known (hc.pos (Nat.zero_lt_of_lt hb)), hbase'⟩
  · exact (congrArg (fun l => u32 (l + 1)) (process_lastSent _ _)).trans h.next
  · simp only at hlt
    exact (process_counting writable h.known h.ok.stat.label (hj ▸ hc) (by omega)
      (totalSeq_lt file) (h.retrans hb)).1

end Sender

/-! ## The system -/

/-- Both programs, and what is on its way between them. -/
structure Flowing (file : List UInt8) (addr : SockAddr) (p : Piped) : Prop where
  receiver : InOrder file addr p.arrived p.session.receiver
  sender : ∃ m, Streaming file m p.read p.session.sender ∧ p.arrived ≤ m
  read : p.read ≤ p.session.receiver.acks.length

section Flowing

variable {file : List UInt8} {addr : SockAddr} {p p' : Piped}

theorem flowing_init (hT : 0 < totalSeq file) : Flowing file addr (Piped.init file) :=
  ⟨inOrder_init hT, ⟨0, streaming_init file, le_refl 0⟩, le_refl 0⟩

/-- **A step of the system.** -/
theorem flowing_step (h : Flowing file addr p) (hs : Piped.Step file addr p p') :
    Flowing file addr p' := by
  obtain ⟨hrecv, ⟨m, hsend, hm⟩, hread⟩ := h
  cases hs with
  | start res hp hs =>
    obtain ⟨m', hle, hsend'⟩ := streaming_sendpkts hsend hs
    exact ⟨hrecv, ⟨m', hsend', hm.trans hle⟩, hread⟩
  | iterate acks writable res hp hb hlen hacks hs =>
    have hc := hrecv.counting.next hread hacks
    have hle : ∀ a ∈ acks, a.ackNum ≤ m := fun a ha =>
      (hrecv.acks a (List.mem_of_mem_drop (hacks.subset ha))).trans hm
    obtain ⟨m', hle', hsend'⟩ := streaming_sendpkts (streaming_process hsend hc hlen hle
      (hsend.total ▸ hb) writable _) hs
    refine ⟨hrecv, ⟨m', hsend', hm.trans hle'⟩, ?_⟩
    have := hacks.length_le
    rw [List.length_drop] at this
    simp only at hread ⊢
    omega
  | exit hp hb => exact ⟨hrecv, ⟨m, hsend, hm⟩, hread⟩
  | recv packet hm' hp =>
    obtain ⟨hlt, hpkt⟩ := List.getElem?_eq_some_iff.mp hp
    simp only [hsend.packets, List.length_map, List.length_range, List.getElem_map,
      List.getElem_range] at hlt hpkt
    rw [← hpkt]
    exact ⟨inOrder_receive hrecv hm', ⟨m, hsend, hlt⟩, hread.trans (acks_receive _ hm').length_le⟩
  | write hm' =>
    exact ⟨inOrder_writeStep hrecv hm', ⟨m, hsend, hm⟩, hread.trans (acks_writeStep _).length_le⟩

/-- **It holds in every state** of the system. -/
theorem flowing_runs (hT : 0 < totalSeq file)
    (h : Runs (fun p => p = Piped.init file) (Piped.Step file addr) p) : Flowing file addr p := by
  refine Runs.invariant (I := Flowing file addr) ?_ (fun _ _ => flowing_step) h
  rintro p rfl
  exact flowing_init hT

end Flowing

/-- **Nothing is sent twice**: with pipes that lose and reorder nothing and no timeouts, in every
state, the packets sent are the first ones of the file, in order and once each, and the bytes
written are those of the packets that have arrived. When the sender has all acks, every packet was
sent once and the receiver has finished with the file. -/
theorem sent_once (file : List UInt8) (h1 : 1 ≤ file.length) (h2 : file.length < 2 ^ 32)
    (addr : SockAddr) (p : Piped)
    (h : Runs (fun p => p = Piped.init file) (Piped.Step file addr) p) :
    (∃ m ≤ totalSeq file,
      p.session.sender.packets = (List.range m).map (genuinePacket file) ∧ p.arrived ≤ m ∧
      p.session.receiver.file = payloads (genuinePacket file) p.arrived) ∧
    (¬ p.session.sender.stat.sendBase < p.session.sender.stat.totalSeq →
      p.session.sender.packets = (List.range (totalSeq file)).map (genuinePacket file) ∧
      p.session.receiver.mode = .finished ∧ p.session.receiver.file = file) := by
  obtain ⟨hT, -⟩ := totalSeq_spec h1 h2
  obtain ⟨hrecv, ⟨m, hsend, hm⟩, hread⟩ := flowing_runs hT h
  have hle : m ≤ totalSeq file := hsend.total ▸ hsend.ok.stat.sent_le
  refine ⟨⟨m, hle, hsend.packets, hm, hrecv.bytes⟩, fun hdone => ?_⟩
  rw [hsend.total, hsend.base] at hdone
  -- more acks than packets come from a receiver that has finished
  obtain ⟨-, hlt, hlen⟩ | ⟨hf, harrived⟩ := hrecv.mode
  · omega
  · obtain rfl : m = totalSeq file := by omega
    refine ⟨hsend.packets, hf, ?_⟩
    rw [hrecv.bytes, harrived]
    exact payloads_totalSeq h1 h2

/-- The first window of a file of two packets. -/
theorem sent_once_twoPackets : ∃ p : Piped, p.session.phase = .looping ∧
    p.session.sender.packets = (List.range 2).map (genuinePacket twoPackets) := by
  obtain ⟨snd, m, hs, hok, hsends, -, -, -, hm⟩ := start_all twoPackets
  have hT : totalSeq twoPackets = 2 := by decide +kernel
  have hrun : Runs (fun p => p = Piped.init twoPackets) (Piped.Step twoPackets ⟨4000, 1⟩)
      ⟨⟨snd, .looping, Receiver.init⟩, 0, 0⟩ := .next (.start rfl) (.start _ rfl hs)
  obtain ⟨⟨m', hle, hpackets, -⟩, -⟩ :=
    sent_once twoPackets (by decide +kernel) (by decide +kernel) ⟨4000, 1⟩ _ hrun
  refine ⟨_, rfl, hpackets.trans ?_⟩
  -- packet `1` is one of them
  have h1 : 1 < m := by
    rw [hT, show initCwnd.window = 4 by decide] at hm
    omega
  have hmem := hsends.mem hok h1
  rw [show snd.packets = _ from hpackets] at hmem
  obtain ⟨q, hq, heq⟩ := List.mem_map.mp hmem
  have hq1 : q = 1 := congrArg RdtPacket.seqNum heq
  rw [hq1, List.mem_range] at hq
  rw [show m' = 2 by omega]

end NetworkingLearning.Transfer
