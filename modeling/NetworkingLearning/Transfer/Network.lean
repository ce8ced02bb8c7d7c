import NetworkingLearning.Transfer.Classified
import NetworkingLearning.Transfer.Strangers

/-!
# Runs with a given network (`sender_main.c:233-278`, `receiver_main.c:186-231`)

The system of `Session.Step` with a network that decides which packets arrive and which events an
iteration of the sender reads (`Network`). The steps are those of `Session.Step`; only what may come
from outside is a parameter, so that one network can be compared with another (`Network.Within`).

`Network.kept` leaves out what the overrun of the ring (`Integrity`), the stall of the sender
(`Stall`) and a `cwnd` that wraps need, and nothing else:
* a packet is taken up only below `last_ack_num + WINDOW`;
* a batch keeps a pending retransmission (`RetransKept`) and does not wrap the window;
* the timer expires only while it runs.

Packets and acks may be lost, duplicated, delayed and reordered as before, timeouts come and
`sendto` fails at any time.

Results:
* `sustained_runs`: with `Network.kept`, in every state, the invariants of both programs hold, the
  receiver knows the sender once it has taken a packet, and does not spin.
* `Session.Under.acks`, `Session.Under.packets`: what a step adds to the acks and packets sent.
-/

namespace NetworkingLearning.Transfer

open NetworkingLearning.Machine

/-- The packets that may arrive in a state, and the events that the sender may read. -/
structure Network where
  arrives : Session → RdtPacket → Prop
  reads : Session → Events → Prop

/-- The steps of the system with a network. -/
inductive Session.Under (file : List UInt8) (addr : SockAddr) (net : Network) :
    Session → Session → Prop
  | start {s : Session} {sender : Sender} (res : ℕ → SendtoResult) (hp : s.phase = .starting)
      (h : sendpkts file res s.sender = some (sender, 0)) :
      Under file addr net s { s with sender := sender, phase := .looping }
  | iterate {s : Session} {sender : Sender} (ev : Events) (res : ℕ → SendtoResult)
      (hp : s.phase = .looping) (hb : s.sender.stat.sendBase < s.sender.stat.totalSeq)
      (hev : net.reads s ev) (h : iterate file res ev s.sender = some (sender, 0)) :
      Under file addr net s { s with sender := sender }
  | exit {s : Session} (hp : s.phase = .looping)
      (hb : ¬ s.sender.stat.sendBase < s.sender.stat.totalSeq) :
      Under file addr net s { s with phase := .closing }
  | recv {s : Session} (packet : RdtPacket) (hm : s.receiver.mode = .receiving)
      (hp : net.arrives s packet) :
      Under file addr net s { s with receiver := receive (datagram addr packet) s.receiver }
  | write {s : Session} {ackNum ret : ℕ} {retval : ℤ}
      (hm : s.receiver.mode = .writing ackNum ret retval) :
      Under file addr net s { s with receiver := writeStep s.receiver }

/-- Acks that were sent and expiries of the running timer. The batch keeps a pending retransmission
and does not wrap the window. -/
structure KeptEvents (s : Session) (ev : Events) : Prop where
  length : ev.acks.length ≤ window
  acks : ∀ a ∈ ev.acks, a ∈ s.receiver.acks
  timer : ∀ round, ev.expired = some round → s.sender.stat.timer.running = true ∧ 1 ≤ round
  retrans : RetransKept s.sender.stat ev.acks
  wraps : s.sender.stat.cwnd.window + ev.acks.length < 2 ^ 64

/-- The network that overruns no ring and stalls no sender. -/
def Network.kept : Network where
  arrives s packet := packet ∈ s.inFlight ∧ packet.seqNum < s.receiver.lastAckNum + window
  reads := KeptEvents

/-- A network that does no more than another. -/
structure Network.Within (net net' : Network) : Prop where
  arrives : ∀ s packet, net.arrives s packet → net'.arrives s packet
  reads : ∀ s ev, net.reads s ev → net'.reads s ev

section Steps

variable {file : List UInt8} {addr : SockAddr} {net net' : Network} {s s' : Session}

theorem Session.Under.mono (h : net.Within net') (hs : Session.Under file addr net s s') :
    Session.Under file addr net' s s' := by
  cases hs with
  | start res hp hs => exact .start res hp hs
  | iterate ev res hp hb hev hs => exact .iterate ev res hp hb (h.reads s ev hev) hs
  | exit hp hb => exact .exit hp hb
  | recv packet hm hp => exact .recv packet hm (h.arrives s packet hp)
  | write hm => exact .write hm

/-- They are steps of the system. -/
theorem Session.Under.step (hs : Session.Under file addr .kept s s') :
    Session.Step file addr (fun r p => p.seqNum < r.lastAckNum + window) s s' := by
  cases hs with
  | start res hp hs => exact .start res hp hs
  | iterate ev res hp hb hev hs => exact .iterate ev res hp hb hev.length hev.acks hs
  | exit hp hb => exact .exit hp hb
  | recv packet hm hp => exact .recv packet hm hp.1 hp.2
  | write hm => exact .write hm

end Steps

/-! ## What was sent -/

section Sent

variable {file : List UInt8} {addr : SockAddr} {net : Network} {s s' : Session} {r : Receiver}
  {snd snd' : Sender} {res : ℕ → SendtoResult} {ret : ℤ}

/-- New acks. The last ones come with the end of the loop and carry `last_ack_num`. -/
def Acks (r r' : Receiver) : Prop :=
  ∃ new, r'.acks = r.acks ++ new ∧
    (r.mode ≠ .finished → r'.mode = .finished → ⟨0, r'.lastAckNum, 1⟩ ∈ new)

theorem Acks.length_le {r' : Receiver} (h : Acks r r') : r.acks.length ≤ r'.acks.length := by
  obtain ⟨new, heq, -⟩ := h
  rw [heq, List.length_append]
  exact Nat.le_add_right _ _

theorem acks_refl (r : Receiver) : Acks r r :=
  ⟨[], (List.append_nil _).symm, fun hne hf => absurd hf hne⟩

theorem acks_waitForBreak {r' : Receiver} (hacks : r'.acks = r.acks) : Acks r (waitForBreak r') :=
  ⟨_, by rw [← hacks]; rfl, fun _ _ => List.mem_replicate.mpr ⟨by decide, rfl⟩⟩

theorem acks_receive (d : Datagram) (hm : r.mode = .receiving) : Acks r (receive d r) := by
  obtain ⟨siOther, rq, last, file, acks, mode⟩ := r
  obtain rfl : mode = .receiving := hm
  simp only [receive]
  split_ifs
  · exact ⟨[], (List.append_nil _).symm, fun _ hf => Mode.noConfusion hf⟩
  · exact ⟨_, rfl, fun _ hf => Mode.noConfusion hf⟩
  · exact acks_waitForBreak rfl
  · rcases checkAndSentBuffer_cases _ _ with hcs | ⟨rq, a, hcs⟩ <;> rw [hcs]
    · exact ⟨[], (List.append_nil _).symm, fun _ hf => Mode.noConfusion hf⟩
    · exact ⟨[a], rfl, fun _ hf => Mode.noConfusion hf⟩
  · exact ⟨_, rfl, fun _ hf => Mode.noConfusion hf⟩
  · exact ⟨_, rfl, fun _ hf => Mode.noConfusion hf⟩

theorem acks_writeStep (r : Receiver) : Acks r (writeStep r) := by
  unfold writeStep
  split
  · simp only
    split
    · exact ⟨[], (List.append_nil _).symm, fun _ hf => Mode.noConfusion hf⟩
    · split
      · exact acks_waitForBreak rfl
      · exact ⟨[], (List.append_nil _).symm, fun _ hf => Mode.noConfusion hf⟩
  · exact acks_refl r

/-- **What a step adds to the acks.** -/
theorem Session.Under.acks (hs : Session.Under file addr net s s') :
    Acks s.receiver s'.receiver := by
  cases hs with
  | start res hp hs => exact acks_refl _
  | iterate ev res hp hb hev hs => exact acks_refl _
  | exit hp hb => exact acks_refl _
  | recv packet hm hp => exact acks_receive _ hm
  | write hm => exact acks_writeStep _

theorem sendpkts_packets (h : sendpkts file res snd = some (snd', ret)) :
    snd.packets <+: snd'.packets :=
  sendpkts_invariant (P := fun x => snd.packets <+: x.packets) (fun _ hx => hx)
    (fun _ hx _ => hx.trans (Sender.packets_sentNext file ▸ List.prefix_append _ _))
    (List.prefix_refl _) h

/-- **What a step adds to the packets.** -/
theorem Session.Under.packets (hs : Session.Under file addr net s s') :
    s.sender.packets <+: s'.sender.packets := by
  cases hs with
  | start res hp hs => exact sendpkts_packets hs
  | iterate ev res hp hb hev hs =>
    have hgrow := sendpkts_packets hs
    exact hgrow
  | exit hp hb => exact List.prefix_refl _
  | recv packet hm hp => exact List.prefix_refl _
  | write hm => exact List.prefix_refl _

end Sent

/-! ## What holds throughout -/

theorem SenderOk.le_nextUnsent {m : ℕ} {s : Sender} (h : SenderOk m s) : m ≤ nextUnsent s := by
  rcases Nat.eq_zero_or_pos m with rfl | hpos
  · exact Nat.zero_le _
  · obtain ⟨p, hp, hq⟩ := (h.sent (m - 1)).mpr (by omega)
    have hmem := (foldl_max_le.mp (le_refl (nextUnsent s))).2 _ (List.mem_map.mpr ⟨p, hp, rfl⟩)
    omega

/-- The invariants of both programs with `Network.kept`. -/
structure Sustained (file : List UInt8) (addr : SockAddr) (s : Session) : Prop where
  ok : ∃ m A, SessionOk file (window - 1) m A s
  quiet : Quiet s.receiver
  peer : 1 ≤ s.receiver.lastAckNum → s.receiver.siOther = addr
  free : s.receiver.mode ≠ .spinning
  starting : s.phase = .starting → s.sender = Sender.init file.length
  waiting : s.phase ≠ .starting → Waiting s.sender

section Sustained

variable {file : List UInt8} {addr : SockAddr} {s s' : Session}

/-- The events of an iteration are those of the runs of the sender alone. -/
theorem Sustained.genuine (h : Sustained file addr s) {ev : Events} (hev : KeptEvents s ev) :
    Genuine s.sender ev := by
  obtain ⟨m, A, hok⟩ := h.ok
  refine ⟨⟨hev.length, fun a ha => ?_⟩, fun a ha => h.quiet.pos a (hev.acks a ha), hev.timer⟩
  exact (hok.receiver.acks a (hev.acks a ha)).trans (hok.acked_le.trans hok.sender.le_nextUnsent)

/-- **A datagram from the sender** makes it the peer, or comes when it is, or changes nothing. -/
theorem peer_receive (hq : Quiet s.receiver) (haddr : addr ≠ Receiver.init.siOther)
    (hpeer : 1 ≤ s.receiver.lastAckNum → s.receiver.siOther = addr)
    (hm : s.receiver.mode = .receiving) (packet : RdtPacket)
    (hlast : 1 ≤ (receive (datagram addr packet) s.receiver).lastAckNum) :
    (receive (datagram addr packet) s.receiver).siOther = addr := by
  rw [receive_siOther hm]
  by_cases h0 : packet.seqNum = 0
  · rw [recvPacket_zero rfl h0]
    rfl
  · rw [recvPacket_ne_zero rfl h0]
    refine hpeer ?_
    by_cases hacc : (recvPacket (datagram addr packet) s.receiver.siOther).1 = 0
    · exact hq.accepted haddr hacc h0
    · unfold receive at hlast
      simp only [hm, if_pos hacc] at hlast
      split at hlast
      · exact hlast
      · exact hlast

/-- **A step of the system** with `Network.kept`. -/
theorem sustained_step (haddr : addr ≠ Receiver.init.siOther) (h : Sustained file addr s)
    (hs : Session.Under file addr .kept s s') : Sustained file addr s' := by
  have hN := numbered_genuinePacket file
  obtain ⟨m, A, hok⟩ := h.ok
  obtain ⟨m', A', hok'⟩ : ∃ m A, SessionOk file (window - 1) m A s' :=
    sessionOk_step (fun r p ha _ => by omega) hok hs.step
  have hstart : s'.phase ≠ .starting → s'.phase = .starting →
      s'.sender = Sender.init file.length := fun hne he => absurd he hne
  cases hs with
  | start res hp hs =>
    refine ⟨⟨m', A', hok'⟩, h.quiet, h.peer, h.free, hstart Phase.noConfusion, fun _ => ?_⟩
    exact waiting_started ⟨res, h.starting hp ▸ hs⟩
  | iterate ev res hp hb hev hs =>
    have hne : s.phase ≠ .starting := fun he => Phase.noConfusion (hp.symm.trans he)
    refine ⟨⟨m', A', hok'⟩, h.quiet, h.peer, h.free, hstart hne, fun _ => ?_⟩
    exact waiting_looped (h.waiting hne) ⟨ev, res, hb, h.genuine hev, hev.retrans, hev.wraps, hs⟩
  | exit hp hb =>
    have hne : s.phase ≠ .starting := fun he => Phase.noConfusion (hp.symm.trans he)
    exact ⟨⟨m', A', hok'⟩, h.quiet, h.peer, h.free, hstart Phase.noConfusion,
      fun _ => h.waiting hne⟩
  | recv packet hm hp =>
    refine ⟨⟨m', A', hok'⟩, quiet_receive hN hok.receiver hm h.quiet haddr hok'.receiver,
      peer_receive h.quiet haddr h.peer hm packet, ?_, h.starting, h.waiting⟩
    obtain ⟨hpkt, hlt⟩ := hok.packet hm hp.1
    have hT := hok.sends.totalSeq ▸ hok.sender.stat.sent_le
    by_cases hacc : (recvPacket (datagram addr packet) s.receiver.siOther).1 = 0
    · exact (receive_accepted hN hok.receiver hm (d := datagram addr packet) hpkt hacc
        (hlt.trans_le hT) (by have := hp.2; omega)).not_spinning (by decide)
    · simp only [receive, hm, if_pos hacc]
      split <;> exact Mode.noConfusion
  | write hm =>
    have hpos : 1 ≤ s.receiver.lastAckNum := by
      by_contra h0
      exact absurd (hm.symm.trans (h.quiet.fresh (by omega)).1) Mode.noConfusion
    refine ⟨⟨m', A', hok'⟩, quiet_writeStep hN hok.receiver h.quiet,
      fun _ => (writeStep_siOther _).trans (h.peer hpos), ?_, h.starting, h.waiting⟩
    rcases writeStep_spec hN hok.receiver hm with ⟨-, rq, file, retval', heq, -⟩ |
      ⟨-, -, heq, -⟩ | ⟨-, heq, -⟩ <;> rw [heq] <;> exact Mode.noConfusion

end Sustained

end NetworkingLearning.Transfer
