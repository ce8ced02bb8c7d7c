import NetworkingLearning.Machine.Runs
import NetworkingLearning.Transfer.Reassembly
import NetworkingLearning.Transfer.SenderRuns

/-!
# Sender, receiver and network (`sender_main.c:227-290`, `receiver_main.c:186-231`)

The two programs run on one file, with a network that may lose, duplicate, delay and reorder: a
datagram that arrives is any packet sent so far, and a batch of acks is any list of acks sent so
far. The timer may expire and `sendto` may fail with `EAGAIN` at any moment.

* One iteration of the sender's event loop is one step (`sender_main.c:233-278`). It reads its acks
  before it sends, so what the receiver does meanwhile is done before it or after it.
* The receiver takes a datagram in one step, up to the second loop of `check_and_sent_buffer`, and
  each pass of that loop in one. Its ack is under way before the bytes are written.
* After its loop the sender sends `lastpkt` twenty times (`sender_main.c:280-290`), with sequence
  number `0`, so that these may arrive too (`Session.inFlight`).
* `arrives` restricts which datagrams are taken up, for results about part of the runs.

`SessionOk` ties the two together. The receiver has accepted only packets that were sent, so an ack
is at most one more than a number sent, and `sendBase` is at most the number acked last.

Results:
* `sessionOk_runs`: `SessionOk` holds throughout.

Out of scope: datagrams from anywhere else, which are in `Strangers`, and calls that fail otherwise,
after which one of the processes is gone.
-/

namespace NetworkingLearning.Transfer

open NetworkingLearning.Machine

/-- Where `reliablyTransfer` is: before its first `sendpkts`, in its loop, after the loop. -/
inductive Phase
  | starting
  | looping
  | closing
  deriving DecidableEq

/-- The two programs. -/
structure Session where
  sender : Sender
  phase : Phase
  receiver : Receiver

/-- The start, for a file. -/
def Session.init (file : List UInt8) : Session :=
  ⟨Sender.init file.length, .starting, Receiver.init⟩

/-- The packets that may arrive. -/
def Session.inFlight (s : Session) : List RdtPacket :=
  s.sender.packets ++
    match s.phase with
    | .closing => List.replicate 20 lastpkt
    | _ => []

/-- The steps of the system for a file, with the sender at `addr`. -/
inductive Session.Step (file : List UInt8) (addr : SockAddr)
    (arrives : Receiver → RdtPacket → Prop) : Session → Session → Prop
  | start {s : Session} {sender : Sender} (res : ℕ → SendtoResult) (hp : s.phase = .starting)
      (h : sendpkts file res s.sender = some (sender, 0)) :
      Step file addr arrives s { s with sender := sender, phase := .looping }
  | iterate {s : Session} {sender : Sender} (ev : Events) (res : ℕ → SendtoResult)
      (hp : s.phase = .looping) (hb : s.sender.stat.sendBase < s.sender.stat.totalSeq)
      (hlen : ev.acks.length ≤ window) (hacks : ∀ a ∈ ev.acks, a ∈ s.receiver.acks)
      (h : iterate file res ev s.sender = some (sender, 0)) :
      Step file addr arrives s { s with sender := sender }
  | exit {s : Session} (hp : s.phase = .looping)
      (hb : ¬ s.sender.stat.sendBase < s.sender.stat.totalSeq) :
      Step file addr arrives s { s with phase := .closing }
  | recv {s : Session} (packet : RdtPacket) (hm : s.receiver.mode = .receiving)
      (hp : packet ∈ s.inFlight) (ha : arrives s.receiver packet) :
      Step file addr arrives s
        { s with receiver := receive (datagram addr packet) s.receiver }
  | write {s : Session} {ackNum ret : ℕ} {retval : ℤ}
      (hm : s.receiver.mode = .writing ackNum ret retval) :
      Step file addr arrives s { s with receiver := writeStep s.receiver }

/-- The states of the system. -/
def Session.Reachable (file : List UInt8) (addr : SockAddr)
    (arrives : Receiver → RdtPacket → Prop) : Session → Prop :=
  Runs (fun s => s = Session.init file) (Session.Step file addr arrives)

section Reachable

variable {file : List UInt8} {addr : SockAddr} {arrives : Receiver → RdtPacket → Prop}
  {sender : Sender} {phase : Phase} {r r' : Receiver}

/-- A packet that was sent arrives. -/
theorem Session.Reachable.recv (h : Session.Reachable file addr arrives ⟨sender, phase, r⟩)
    {packet : RdtPacket} (hm : r.mode = .receiving) (hp : packet ∈ sender.packets)
    (ha : arrives r packet) (hr : receive (datagram addr packet) r = r') :
    Session.Reachable file addr arrives ⟨sender, phase, r'⟩ :=
  Runs.next h (hr ▸ .recv packet hm (List.mem_append_left _ hp) ha)

/-- The receiver goes on in its second loop. -/
theorem Session.Reachable.write (h : Session.Reachable file addr arrives ⟨sender, phase, r⟩)
    {ackNum ret : ℕ} {retval : ℤ} (hm : r.mode = .writing ackNum ret retval)
    (hr : writeStep r = r') : Session.Reachable file addr arrives ⟨sender, phase, r'⟩ :=
  Runs.next h (hr ▸ .write hm)

end Reachable

/-! ## What the sender sends -/

/-- The sender sends packets of the file. -/
structure SendsFile (file : List UInt8) (s : Sender) : Prop where
  totalSeq : s.stat.totalSeq = totalSeq file
  lastChunk : s.stat.lastChunk = (initSenderStat file.length).lastChunk
  packets : ∀ p ∈ s.packets, p = genuinePacket file p.seqNum

section Sends

variable {file : List UInt8} {res : ℕ → SendtoResult} {s s' : Sender} {r : ℤ}

theorem sendsFile_init (file : List UInt8) : SendsFile file (Sender.init file.length) :=
  ⟨rfl, rfl, fun p hp => absurd hp (by simp [Sender.packets, Sender.init])⟩

/-- **`sendpkts`** sends packets of the file, and leaves `cwnd` and `sendBase` alone. -/
theorem sendsFile_sendpkts (h : SendsFile file s) (hs : sendpkts file res s = some (s', r)) :
    SendsFile file s' ∧ s'.stat.cwnd = s.stat.cwnd ∧ s'.stat.sendBase = s.stat.sendBase := by
  refine sendpkts_invariant (P := fun x => SendsFile file x ∧ x.stat.cwnd = s.stat.cwnd ∧
    x.stat.sendBase = s.stat.sendBase)
    (fun x ⟨hx, hc, hb⟩ => ⟨⟨hx.totalSeq, hx.lastChunk, hx.packets⟩, hc, hb⟩)
    (fun x hx _ => ?_) ⟨h, rfl, rfl⟩ hs
  obtain ⟨⟨hT, hl, hp⟩, hc, hb⟩ := hx
  obtain ⟨hc', hb', hT', hl', -⟩ := updateNextSeq_frame
    { x.stat with timer := startTimerIfNotRunning x.stat.timer } (getNextSeq x.stat)
  refine ⟨⟨hT'.trans hT, hl'.trans hl, fun p hmem => ?_⟩, hc'.trans hc, hb'.trans hb⟩
  rw [Sender.packets_sentNext] at hmem
  rcases List.mem_append.mp hmem with hmem | hmem
  · exact hp p hmem
  · obtain rfl := List.mem_singleton.mp hmem
    exact buildPacket_eq hT hl

theorem sendsFile_iterate {ev : Events} (h : SendsFile file s)
    (hs : iterate file res ev s = some (s', r)) :
    SendsFile file s' ∧ s'.stat.cwnd = (process ev s.stat).cwnd ∧
      s'.stat.sendBase = maxAck ev.acks s.stat.sendBase := by
  obtain ⟨hb, hT, hl, -⟩ := process_frame ev s.stat
  have h' : SendsFile file { s with
      stat := process ev s.stat
      sockWritable := s.sockWritable || ev.writable } :=
    ⟨hT.trans h.totalSeq, hl.trans h.lastChunk, h.packets⟩
  obtain ⟨hok, hc, hb'⟩ := sendsFile_sendpkts h' hs
  exact ⟨hok, hc, hb'.trans hb⟩

/-- **The first call of `sendpkts`**, if `sendto` does not fail: the first window. -/
theorem start_all (file : List UInt8) : ∃ s m,
    sendpkts file (fun _ => .sent) (Sender.init file.length) = some (s, 0) ∧ SenderOk m s ∧
    SendsFile file s ∧ s.sockWritable = true ∧ s.stat.cwnd = initCwnd ∧ s.stat.sendBase = 0 ∧
    (totalSeq file ≤ m ∨ initCwnd.window ≤ m) := by
  obtain ⟨s, m, hs, hok, hw, hm⟩ := sendpkts_all file senderOk_init rfl
  obtain ⟨hsends, hc, hb⟩ := sendsFile_sendpkts (sendsFile_init file) hs
  rw [hsends.totalSeq, hc, hb] at hm
  exact ⟨s, m, hs, hok, hsends, hw, hc, hb, hm.imp_right fun h => (Nat.zero_add _).symm.trans_le h⟩

/-- **An iteration with a batch of acks**, if `sendto` does not fail: it sends the window. -/
theorem iterate_all {m : ℕ} (h : SendsFile file s) (hok : SenderOk m s)
    (hw : s.sockWritable = true) {acks : List AckPacket} (hne : acks ≠ [])
    (hlen : acks.length ≤ window) (hacks : ∀ a ∈ acks, a.ackNum ≤ m) :
    ∃ s' m', iterate file (fun _ => .sent) ⟨acks, false, none⟩ s = some (s', 0) ∧
      SenderOk m' s' ∧ SendsFile file s' ∧ s'.sockWritable = true ∧
      s'.stat.cwnd = (confirmThreeDups (batchCwnd acks s.stat.cwnd s.stat.sendBase)).1 ∧
      s'.stat.sendBase = maxAck acks s.stat.sendBase ∧
      (totalSeq file ≤ m' ∨ s'.stat.sendBase + s'.stat.cwnd.window ≤ m') := by
  obtain ⟨-, -, -, hcw⟩ := process_frame ⟨acks, false, none⟩ s.stat
  have hproc : StatOk m (process ⟨acks, false, none⟩ s.stat) := statOk_process hok.stat hlen hacks
  obtain ⟨s', m', hs, hok', hw', hm⟩ := sendpkts_all file
    (s := { s with
      stat := process ⟨acks, false, none⟩ s.stat
      sockWritable := s.sockWritable || false })
    ⟨hproc, hok.sent, hok.wire⟩ (by simp [hw])
  have hit : iterate file (fun _ => .sent) ⟨acks, false, none⟩ s = some (s', 0) := hs
  obtain ⟨hsends, hc, hb⟩ := sendsFile_iterate h hit
  rw [hsends.totalSeq] at hm
  exact ⟨s', m', hit, hok', hsends, hw', hc.trans (hcw hne rfl), hb, hm⟩

/-- What was sent may arrive. -/
theorem SendsFile.mem {m q : ℕ} (h : SendsFile file s) (hok : SenderOk m s) (hq : q < m) :
    genuinePacket file q ∈ s.packets := by
  obtain ⟨p, hp, rfl⟩ := (hok.sent q).mpr hq
  rw [← h.packets p hp]
  exact hp

end Sends

/-! ## The invariant -/

/-- The system for a file, with packets at most `w` beyond `last_ack_num` when they arrive. -/
structure SessionOk (file : List UInt8) (w m : ℕ) (A : Set ℕ) (s : Session) : Prop where
  sender : SenderOk m s.sender
  sends : SendsFile file s.sender
  receiver : ReceiverOk (genuinePacket file) (totalSeq file) w A s.receiver
  sent : ∀ q ∈ A, q < m
  base : s.sender.stat.sendBase ≤ s.receiver.acked
  closing : s.phase = .closing → totalSeq file ≤ s.sender.stat.sendBase

section Invariant

variable {file : List UInt8} {addr : SockAddr} {w m : ℕ} {A : Set ℕ} {s s' : Session}
  {arrives : Receiver → RdtPacket → Prop}

theorem sessionOk_init (hT : 0 < totalSeq file) :
    SessionOk file w 0 ∅ (Session.init file) where
  sender := senderOk_init
  sends := sendsFile_init file
  receiver := receiverOk_init hT
  sent q hq := absurd hq (Set.notMem_empty q)
  base := Nat.zero_le _
  closing h := Phase.noConfusion h

/-- The number acked last is at most one more than a number sent. -/
theorem SessionOk.acked_le (h : SessionOk file w m A s) : s.receiver.acked ≤ m := by
  rcases h.receiver.reach with h0 | ⟨q, hq, hle⟩
  · omega
  · have := h.sent q hq
    omega

theorem SessionOk.acked_le_total (h : SessionOk file w m A s) :
    s.receiver.acked ≤ totalSeq file :=
  h.acked_le.trans (h.sends.totalSeq ▸ h.sender.stat.sent_le)

/-- A receiver that waits for a datagram has not acked the last packet. -/
theorem SessionOk.receiving (h : SessionOk file w m A s)
    (hm : s.receiver.mode = .receiving) : s.receiver.lastAckNum < totalSeq file ∧
      s.receiver.acked = s.receiver.lastAckNum := by
  exact ⟨(h.receiver.receiving hm).last_lt, Receiver.acked_receiving hm⟩

/-- The packet that arrives is one of the file: those sent after the loop come too late. -/
theorem SessionOk.packet (h : SessionOk file w m A s) (hm : s.receiver.mode = .receiving)
    {packet : RdtPacket} (hp : packet ∈ s.inFlight) :
    packet = genuinePacket file packet.seqNum ∧ packet.seqNum < m := by
  rcases List.mem_append.mp hp with hp | hp
  · exact ⟨h.sends.packets packet hp, (h.sender.sent _).mp ⟨packet, hp, rfl⟩⟩
  · cases hph : s.phase with
    | closing =>
      obtain ⟨hlt, hacked⟩ := h.receiving hm
      have h1 := h.closing hph
      have h2 := h.base
      omega
    | starting =>
      rw [hph] at hp
      exact absurd hp List.not_mem_nil
    | looping =>
      rw [hph] at hp
      exact absurd hp List.not_mem_nil

variable (hT : 0 < totalSeq file) (harr : ∀ r p, arrives r p → p.seqNum < totalSeq file →
  p.seqNum ≤ r.lastAckNum + w)

include harr

/-- **A step of the system keeps the invariant.** -/
theorem sessionOk_step (h : SessionOk file w m A s) (hs : Session.Step file addr arrives s s') :
    ∃ m' A', SessionOk file w m' A' s' := by
  have hN := numbered_genuinePacket file
  cases hs with
  | start res hp hs =>
    obtain ⟨s1, r, m', h1, hok, hm⟩ := sendpkts_spec file res h.sender
    obtain ⟨rfl, -⟩ := Prod.mk.inj (Option.some.inj (hs.symm.trans h1))
    obtain ⟨hsends, -, hb⟩ := sendsFile_sendpkts h.sends hs
    exact ⟨m', A, hok, hsends, h.receiver, fun q hq => (h.sent q hq).trans_le hm,
      hb.trans_le h.base, fun hc => Phase.noConfusion hc⟩
  | iterate ev res hp hb hlen hacks hs =>
    have hle : ∀ a ∈ ev.acks, a.ackNum ≤ s.receiver.acked := fun a ha =>
      h.receiver.acks a (hacks a ha)
    obtain ⟨s1, r, m', h1, hok, hm⟩ := iterate_spec file res h.sender hlen fun a ha =>
      (hle a ha).trans h.acked_le
    obtain ⟨rfl, -⟩ := Prod.mk.inj (Option.some.inj (hs.symm.trans h1))
    obtain ⟨hsends, -, hb'⟩ := sendsFile_iterate h.sends hs
    exact ⟨m', A, hok, hsends, h.receiver, fun q hq => (h.sent q hq).trans_le hm,
      hb'.trans_le (maxAck_le h.base hle), fun hc => Phase.noConfusion (hp.symm.trans hc)⟩
  | exit hp hb =>
    exact ⟨m, A, h.sender, h.sends, h.receiver, h.sent, h.base,
      fun _ => h.sends.totalSeq ▸ not_lt.mp hb⟩
  | recv packet hm hp ha =>
    obtain ⟨hpkt, hlt⟩ := h.packet hm hp
    have hT : packet.seqNum < totalSeq file :=
      hlt.trans_le (h.sends.totalSeq ▸ h.sender.stat.sent_le)
    obtain ⟨A', hA, hok, hacked⟩ := receiverOk_receive hN h.receiver hm
      (d := datagram addr packet) hpkt hT (harr _ _ ha hT)
    refine ⟨m, A', h.sender, h.sends, hok, fun q hq => ?_, h.base.trans hacked, h.closing⟩
    rcases Set.mem_insert_iff.mp (hA hq) with rfl | hq
    · exact hlt
    · exact h.sent q hq
  | write hm =>
    obtain ⟨hok, hacked⟩ := receiverOk_writeStep hN h.receiver
    exact ⟨m, A, h.sender, h.sends, hok, h.sent, h.base.trans_eq hacked.symm, h.closing⟩

include hT

/-- **The invariant holds in every state of the system.** -/
theorem sessionOk_runs (h : Session.Reachable file addr arrives s) :
    ∃ m A, SessionOk file w m A s := by
  refine Runs.invariant (I := fun s => ∃ m A, SessionOk file w m A s) ?_ ?_ h
  · rintro s rfl
    exact ⟨0, ∅, sessionOk_init hT⟩
  · rintro s s' ⟨m, A, hok⟩ hs
    exact sessionOk_step harr hok hs

end Invariant

end NetworkingLearning.Transfer
