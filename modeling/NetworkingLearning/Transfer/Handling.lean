import Mathlib.Data.Finset.Card
import NetworkingLearning.Transfer.Packets
import NetworkingLearning.Transfer.Receiver

/-!
# The loop of `reliablyReceive`, whatever arrives (`receiver_main.c:186-231`)

Datagrams of any kind and from anywhere, one after another, each a pass of the loop. Two loops of
`check_and_sent_buffer` are inside of a pass. The second one (`receiver_main.c:90-103`) clears a
slot in each of its passes, so it always ends. The first one (`receiver_main.c:75-77`) clears
nothing: it ends as long as a slot is free.

The ring never asks how far a packet is ahead, so a packet may be stored at any slot, that of
`last_ack_num` itself included. `Clogged` says that all are occupied when the packet `last_ack_num`
comes.

* `ackScan` and `writeLoop` run on fuel. `handlingEnds_iff` speaks of all amounts of fuel, so that a
  loop which goes on for ever is told apart from one that needs more.
* Lemmas about what a pass leaves as it is (`siOther`, the records) are here too, for the modules
  behind.

Results:
* `writeLoop_ends`, `handle_total`: the second loop ends, from any state.
* `handlingEnds_iff`: a handling ends unless the packet `last_ack_num` finds every slot occupied.
* `handling_ends_iff`: the same of all handlings of a run.
* `scan_spins`: 4098 packets of a file on which the first loop does not end.
-/

namespace NetworkingLearning.Transfer

open NetworkingLearning.Machine

/-- The receiver after datagrams, the first of the list first. -/
def receiveAll (ds : List Datagram) (r : Receiver) : Option Receiver :=
  ds.foldlM (fun r d => handle d r) r

@[simp] theorem receiveAll_cons (d : Datagram) (ds : List Datagram) (r : Receiver) :
    receiveAll (d :: ds) r = (handle d r).bind (receiveAll ds) := rfl

@[simp] theorem receiveAll_append (ds ds' : List Datagram) (r : Receiver) :
    receiveAll (ds ++ ds') r = (receiveAll ds r).bind (receiveAll ds') :=
  List.foldlM_append

theorem receiveAll_snoc (ds : List Datagram) (d : Datagram) (r : Receiver) :
    receiveAll (ds ++ [d]) r = (receiveAll ds r).bind (handle d) := by
  rw [receiveAll_append]
  refine congrArg _ (funext fun s => ?_)
  rw [receiveAll_cons]
  cases handle d s <;> rfl

theorem slot_lt (p : ℕ) : p % window < window := Nat.mod_lt _ (by decide)

/-! ## The second loop of `check_and_sent_buffer` -/

section Writing

variable {P : Receiver → Prop} {r r' : Receiver} {d : Datagram}

/-- The occupied slots. -/
def occupied (rq : ReceiverQ) : Finset ℕ := (Finset.range window).filter fun j => rq.buflen j = 1

theorem occupied_card_le (rq : ReceiverQ) : (occupied rq).card ≤ window :=
  (Finset.card_filter_le _ _).trans (Finset.card_range window).le

theorem slot_mem_occupied {rq : ReceiverQ} {n : ℕ} (h : rq.buflen (n % window) = 1) :
    n % window ∈ occupied rq :=
  Finset.mem_filter.mpr ⟨Finset.mem_range.mpr (slot_lt n), h⟩

/-- Clearing a slot that is occupied leaves fewer. -/
theorem occupied_clear {rq : ReceiverQ} {n : ℕ} (h : rq.buflen (n % window) = 1)
    (packet : RdtPacket) :
    (occupied ⟨Function.update rq.buffer (n % window) packet,
      Function.update rq.buflen (n % window) 0⟩).card < (occupied rq).card := by
  refine Finset.card_lt_card (Finset.ssubset_iff_of_subset ?_ |>.mpr
    ⟨n % window, slot_mem_occupied h, ?_⟩)
  · intro j hj
    obtain ⟨hlt, hs⟩ := Finset.mem_filter.mp hj
    refine Finset.mem_filter.mpr ⟨hlt, ?_⟩
    by_cases hjn : j = n % window
    · exact hjn ▸ h
    · exact (Function.update_of_ne hjn ..).symm.trans hs
  · intro hmem
    exact absurd ((Function.update_self ..).symm.trans (Finset.mem_filter.mp hmem).2) (by decide)

/-- **The second loop ends**: in each pass a slot is cleared. -/
theorem writeLoop_ends : ∀ (fuel : ℕ) (r : Receiver), (occupied r.recQueue).card < fuel →
    ∃ r', writeLoop fuel r = some r' := by
  intro fuel
  induction fuel with
  | zero => exact fun r h => absurd h (Nat.not_lt_zero _)
  | succ fuel ih =>
    intro r hlt
    cases hm : r.mode with
    | writing ackNum ret retval =>
      rw [writeLoop, hm]
      by_cases hs : r.recQueue.buflen (ret % window) = 1
      · have hclear := occupied_clear hs RdtPacket.zero
        refine ih _ ?_
        simp only [writeStep, hm, if_pos hs]
        omega
      · cases fuel <;> simp only [writeStep, hm, if_neg hs] <;> unfold writeLoop <;>
          split_ifs <;> exact ⟨_, rfl⟩
    | receiving => exact ⟨r, by rw [writeLoop, hm]⟩
    | spinning => exact ⟨r, by rw [writeLoop, hm]⟩
    | finished => exact ⟨r, by rw [writeLoop, hm]⟩

theorem handle_total (d : Datagram) (r : Receiver) : ∃ r', handle d r = some r' :=
  writeLoop_ends (window + 1) _ (Nat.lt_succ_of_le (occupied_card_le _))

theorem receiveAll_total : ∀ (ds : List Datagram) (r : Receiver),
    ∃ r', receiveAll ds r = some r' := by
  intro ds
  induction ds with
  | nil => exact fun r => ⟨r, rfl⟩
  | cons d ds ih =>
    intro r
    obtain ⟨r', hr⟩ := handle_total d r
    rw [receiveAll_cons, hr]
    exact ih r'

/-- Outside the second loop there is nothing to do. -/
theorem writeLoop_stop (hm : ∀ ackNum ret retval, r.mode ≠ .writing ackNum ret retval)
    (fuel : ℕ) : writeLoop fuel r = some r := by
  unfold writeLoop
  split
  · rename_i heq
    exact absurd heq (hm _ _ _)
  · rfl

/-- The loop is `writeStep`, iterated. -/
theorem writeLoop_iterate : ∀ (fuel : ℕ) (r r' : Receiver), writeLoop fuel r = some r' →
    (∃ k, writeStep^[k] r = r') ∧
      ∀ ackNum ret retval, r'.mode ≠ .writing ackNum ret retval := by
  intro fuel
  induction fuel with
  | zero =>
    intro r r' h
    unfold writeLoop at h
    split at h
    · exact absurd h (by simp)
    · rename_i hne
      obtain rfl := Option.some.inj h
      exact ⟨⟨0, rfl⟩, hne⟩
  | succ fuel ih =>
    intro r r' h
    unfold writeLoop at h
    split at h
    · obtain ⟨⟨k, hk⟩, hne⟩ := ih _ _ h
      exact ⟨⟨k + 1, hk⟩, hne⟩
    · rename_i hne
      obtain rfl := Option.some.inj h
      exact ⟨⟨0, rfl⟩, hne⟩

/-- **What a pass of the second loop keeps**, the loop keeps. -/
theorem writeLoop_invariant (hstep : ∀ r, P r → P (writeStep r)) {fuel : ℕ} (hr : P r)
    (h : writeLoop fuel r = some r') : P r' := by
  obtain ⟨⟨k, rfl⟩, -⟩ := writeLoop_iterate fuel r r' h
  exact Function.Iterate.rec P hr hstep k

theorem writeStep_spinning : (writeStep r).mode = .spinning ↔ r.mode = .spinning := by
  cases hm : r.mode with
  | writing ackNum ret retval =>
    simp only [writeStep, hm]
    split_ifs <;> simp [waitForBreak]
  | receiving => simp [writeStep, hm]
  | spinning => simp [writeStep, hm]
  | finished => simp [writeStep, hm]

theorem writeLoop_spinning {fuel : ℕ} (h : writeLoop fuel r = some r') :
    r'.mode = .spinning ↔ r.mode = .spinning :=
  writeLoop_invariant (P := fun s => s.mode = .spinning ↔ r.mode = .spinning)
    (fun _ hs => writeStep_spinning.trans hs) Iff.rfl h

end Writing

/-! ## The first loop of `check_and_sent_buffer` -/

section Scan

variable {buflen : ℕ → ℕ}

/-- `WINDOW` divides the range of a `uint32_t`. -/
@[simp] theorem u32_mod_window (n : ℕ) : u32 n % window = n % window :=
  Nat.mod_mod_of_dvd n (by decide)

/-- It runs out of fuel only past occupied slots. -/
theorem ackScan_none : ∀ (fuel n : ℕ), ackScan buflen fuel n = none →
    ∀ k ≤ fuel, buflen ((n + k) % window) = 1 := by
  intro fuel
  induction fuel with
  | zero =>
    intro n h k hk
    obtain rfl := Nat.le_zero.mp hk
    rw [ackScan] at h
    split at h
    · assumption
    · exact absurd h (by simp)
  | succ fuel ih =>
    intro n h k hk
    rw [ackScan] at h
    split at h
    · rename_i hs
      cases k with
      | zero => exact hs
      | succ k =>
        have hk' := ih _ h k (Nat.le_of_succ_le_succ hk)
        rwa [← Nat.mod_add_mod, u32_mod_window, Nat.mod_add_mod, Nat.add_right_comm] at hk'
    · exact absurd h (by simp)

/-- With every slot occupied it does not end. -/
theorem ackScan_full (h : ∀ j < window, buflen j = 1) : ∀ fuel n : ℕ,
    ackScan buflen fuel n = none := by
  intro fuel
  induction fuel with
  | zero => exact fun n => by rw [ackScan, if_pos (h _ (slot_lt n))]
  | succ fuel ih => exact fun n => by rw [ackScan, if_pos (h _ (slot_lt n)), ih]

/-- **A scan that has seen as many slots as there are has seen them all.** -/
theorem ackScan_none_iff (n : ℕ) :
    ackScan buflen window n = none ↔ ∀ j < window, buflen j = 1 := by
  refine ⟨fun h j hj => ?_, fun h => ackScan_full h window n⟩
  have hs := ackScan_none window n h ((j + (window - n % window)) % window) (slot_lt _).le
  rwa [show (n + (j + (window - n % window)) % window) % window = j by
    unfold window at hj ⊢
    omega] at hs

end Scan

/-! ## The peer -/

section Peer

variable {d : Datagram} {siOther : SockAddr}

/-- A packet `0` makes its source the peer. -/
theorem recvPacket_zero (hsize : d.numbytes = rdtPacketSize) (h0 : d.packet.seqNum = 0) :
    recvPacket d siOther = (0, d.addr) := by
  simp [recvPacket, hsize, h0]

/-- Another packet is accepted from the peer alone. -/
theorem recvPacket_ne_zero (hsize : d.numbytes = rdtPacketSize) (h0 : d.packet.seqNum ≠ 0) :
    recvPacket d siOther = (if d.addr = siOther then 0 else -1, siOther) := by
  have hne : (d.addr.sinPort ≠ siOther.sinPort ∨ d.addr.sinAddr ≠ siOther.sinAddr) ↔
      d.addr ≠ siOther := by
    rw [← not_and_or, not_iff_not]
    exact ⟨fun h => by cases ha : d.addr; cases siOther; simp_all, fun h => by simp [h]⟩
  simp only [recvPacket, hsize, h0, hne, ne_eq, not_true_eq_false, if_false, ite_not]
  split <;> rfl

/-- The peer stays the peer. -/
theorem recvPacket_peer (hsize : d.numbytes = rdtPacketSize) (haddr : d.addr = siOther) :
    recvPacket d siOther = (0, siOther) := by
  by_cases h0 : d.packet.seqNum = 0
  · rw [recvPacket_zero hsize h0, haddr]
  · rw [recvPacket_ne_zero hsize h0, if_pos haddr]

end Peer

/-! ## A handling -/

section Handling

variable {d : Datagram} {r r' : Receiver}

/-- The receiver comes to `check_and_sent_buffer`: the packet is `last_ack_num`, and not the
last. -/
def Scans (d : Datagram) (r : Receiver) : Prop :=
  (recvPacket d r.siOther).1 = 0 ∧ d.packet.seqNum = r.lastAckNum ∧ d.packet.finByte ≠ 1

/-- It comes there with every slot occupied. -/
def Clogged (d : Datagram) (r : Receiver) : Prop :=
  Scans d r ∧ ∀ j < window, r.recQueue.buflen j = 1

/-- **The handling of a datagram ends**: so does the first loop of `check_and_sent_buffer`, where
the receiver comes to it, and the rest of the pass. -/
structure HandlingEnds (d : Datagram) (r : Receiver) : Prop where
  scan : Scans d r → ∃ fuel ackNum,
    ackScan r.recQueue.buflen fuel (u32 (d.packet.seqNum + 1)) = some ackNum
  write : ∃ fuel r', writeLoop fuel (receive d r) = some r' ∧ r'.mode ≠ .spinning

/-- **`check_and_sent_buffer` before its second loop** does not end, or sends one ack. -/
theorem checkAndSentBuffer_cases (r : Receiver) (pkt : RdtPacket) :
    checkAndSentBuffer r pkt = { r with mode := .spinning } ∨
      ∃ rq a, checkAndSentBuffer r pkt = { r with
        recQueue := rq
        acks := r.acks ++ [a]
        mode := .writing a.ackNum r.lastAckNum 0 } := by
  unfold checkAndSentBuffer
  split
  · exact Or.inl rfl
  · refine Or.inr ?_
    split
    · exact ⟨_, _, rfl⟩
    · exact ⟨r.recQueue, _, rfl⟩

theorem checkAndSentBuffer_spinning (r : Receiver) (pkt : RdtPacket) :
    (checkAndSentBuffer r pkt).mode = .spinning ↔ ∀ j < window, r.recQueue.buflen j = 1 := by
  rw [← ackScan_none_iff r.lastAckNum, checkAndSentBuffer]
  cases ackScan r.recQueue.buflen window r.lastAckNum with
  | none => simp
  | some ackNum =>
    simp only
    split_ifs <;> simp

theorem receive_stop (hm : r.mode ≠ .receiving) : receive d r = r := by
  unfold receive
  split
  · exact absurd ‹_› hm
  · rfl

theorem receive_spinning (hm : r.mode = .receiving) :
    (receive d r).mode = .spinning ↔ Clogged d r := by
  unfold Clogged Scans
  simp only [receive, hm]
  by_cases hacc : (recvPacket d r.siOther).1 = 0
  · by_cases hseq : d.packet.seqNum = r.lastAckNum
    · by_cases hfin : d.packet.finByte = 1
      · simp [hacc, hseq, hfin]
      · simp [hacc, hseq, hfin, checkAndSentBuffer_spinning]
    · by_cases hlt : d.packet.seqNum > r.lastAckNum <;>
        simp [hacc, hseq, hlt]
  · by_cases hlast : r.lastAckNum = 0 <;> simp [hacc, hlast]

/-- **A handling ends** unless the packet `last_ack_num` finds every slot occupied. -/
theorem handlingEnds_iff (hm : r.mode = .receiving) : HandlingEnds d r ↔ ¬ Clogged d r := by
  constructor
  · rintro ⟨hscan, -⟩ ⟨hs, hfull⟩
    obtain ⟨fuel, ackNum, hsome⟩ := hscan hs
    rw [ackScan_full hfull] at hsome
    exact absurd hsome (by simp)
  · intro hfree
    refine ⟨fun hs => ?_, ?_⟩
    · cases hscan : ackScan r.recQueue.buflen window (u32 (d.packet.seqNum + 1)) with
      | none => exact absurd ⟨hs, (ackScan_none_iff _).mp hscan⟩ hfree
      | some ackNum => exact ⟨window, ackNum, hscan⟩
    · obtain ⟨r', hr⟩ := handle_total d r
      exact ⟨_, r', hr, fun hspin =>
        hfree ((receive_spinning hm).mp ((writeLoop_spinning hr).mp hspin))⟩

/-- A receiver that has left `recvPacket` for good does not take the datagram. -/
theorem handle_stop (hm : r.mode = .spinning ∨ r.mode = .finished) : handle d r = some r := by
  rw [handle, receive_stop (by rcases hm with hm | hm <;> simp [hm])]
  exact writeLoop_stop (by rcases hm with hm | hm <;> simp [hm]) _

@[simp] theorem writeStep_siOther (r : Receiver) : (writeStep r).siOther = r.siOther := by
  unfold writeStep
  split
  · simp only
    split_ifs <;> rfl
  · rfl

@[simp] theorem checkAndSentBuffer_siOther (r : Receiver) (pkt : RdtPacket) :
    (checkAndSentBuffer r pkt).siOther = r.siOther := by
  rcases checkAndSentBuffer_cases r pkt with heq | ⟨rq, a, heq⟩ <;> rw [heq]

theorem receive_siOther (hm : r.mode = .receiving) :
    (receive d r).siOther = (recvPacket d r.siOther).2 := by
  unfold receive
  simp only [hm]
  split_ifs
  · rfl
  · rfl
  · rfl
  · exact checkAndSentBuffer_siOther _ _
  · rfl
  · rfl

/-- The peer after a handling is what `recvPacket` has made it. -/
theorem handle_siOther (hm : r.mode = .receiving) (h : handle d r = some r') :
    r'.siOther = (recvPacket d r.siOther).2 :=
  writeLoop_invariant (P := fun s => s.siOther = (recvPacket d r.siOther).2)
    (fun s hs => (writeStep_siOther s).trans hs) (receive_siOther hm) h

/-- After a pass the receiver is back at `recvPacket`, or has left the loop, or never will. -/
theorem handle_mode (h : handle d r = some r') :
    r'.mode = .receiving ∨ r'.mode = .spinning ∨ r'.mode = .finished := by
  have hne := (writeLoop_iterate _ _ _ h).2
  cases hm : r'.mode with
  | receiving => exact Or.inl rfl
  | writing ackNum ret retval => exact absurd hm (hne _ _ _)
  | spinning => exact Or.inr (Or.inl rfl)
  | finished => exact Or.inr (Or.inr rfl)

end Handling

/-! ## A run -/

/-- The datagram `d` comes after `pre`, and the receiver is `r` when it comes. -/
def Comes (ds : List Datagram) (d : Datagram) (r : Receiver) : Prop :=
  ∃ pre post, ds = pre ++ d :: post ∧ receiveAll pre Receiver.init = some r

/-- Without a clogged ring the receiver is at `recvPacket` or past the loop. -/
theorem receiveAll_mode : ∀ (ds : List Datagram) (r : Receiver),
    (∀ d s, Comes ds d s → s.mode = .receiving → ¬ Clogged d s) →
    receiveAll ds Receiver.init = some r → r.mode = .receiving ∨ r.mode = .finished := by
  intro ds
  induction ds using List.reverseRecOn with
  | nil =>
    intro r _ h
    obtain rfl := Option.some.inj h
    exact Or.inl rfl
  | append_singleton ds d ih =>
    intro r hfree h
    rw [receiveAll_snoc] at h
    obtain ⟨s, hs, hr⟩ := Option.bind_eq_some_iff.mp h
    have hprev := ih s (fun d' s' ⟨pre, post, heq, hpre⟩ =>
      hfree d' s' ⟨pre, post ++ [d], by rw [heq]; simp, hpre⟩) hs
    rcases hprev with hm | hm
    · have hspin : r.mode ≠ .spinning := fun hspin =>
        hfree d s ⟨ds, [], rfl, hs⟩ hm
          ((receive_spinning hm).mp ((writeLoop_spinning hr).mp hspin))
      rcases handle_mode hr with h' | h' | h'
      · exact Or.inl h'
      · exact absurd h' hspin
      · exact Or.inr h'
    · obtain rfl := Option.some.inj ((handle_stop (Or.inr hm)).symm.trans hr)
      exact Or.inr hm

/-- **Every handling of a run ends**, whatever arrives, if and only if the packet `last_ack_num`
never finds every slot occupied. The receiver comes to each datagram, unless it has left the
loop before. -/
theorem handling_ends_iff (ds : List Datagram) :
    (∀ pre d post, ds = pre ++ d :: post → ∃ r, receiveAll pre Receiver.init = some r ∧
      (r.mode = .finished ∨ r.mode = .receiving ∧ HandlingEnds d r)) ↔
    ∀ d r, Comes ds d r → r.mode = .receiving → ¬ Clogged d r := by
  constructor
  · rintro hends d r ⟨pre, post, heq, hr⟩ hm
    obtain ⟨r', hr', hend⟩ := hends pre d post heq
    obtain rfl := Option.some.inj (hr'.symm.trans hr)
    rcases hend with hf | ⟨-, he⟩
    · exact absurd (hm.symm.trans hf) Mode.noConfusion
    · exact (handlingEnds_iff hm).mp he
  · rintro hfree pre d post rfl
    obtain ⟨r, hr⟩ := receiveAll_total pre Receiver.init
    refine ⟨r, hr, ?_⟩
    have hmode := receiveAll_mode pre r (fun d' s ⟨pre', post', heq, hs⟩ =>
      hfree d' s ⟨pre', post' ++ d :: post, by rw [heq]; simp, hs⟩) hr
    rcases hmode with hm | hm
    · exact Or.inr ⟨hm, (handlingEnds_iff hm).mpr (hfree d r ⟨pre, post, rfl, hr⟩ hm)⟩
    · exact Or.inl hm

/-! ## A clogged ring -/

/-- Packets beyond `last_ack_num` go to the ring, and nothing else changes but the acks. -/
theorem receiveAll_beyond (addr : SockAddr) : ∀ (ps : List RdtPacket) (r : Receiver),
    r.mode = .receiving → r.siOther = addr → (∀ p ∈ ps, r.lastAckNum < p.seqNum) →
    ∃ acks, receiveAll (ps.map (datagram addr)) r =
      some { r with recQueue := ps.foldl mapToQueue r.recQueue, acks := acks } := by
  intro ps
  induction ps with
  | nil => exact fun r _ _ _ => ⟨r.acks, rfl⟩
  | cons p ps ih =>
    intro r hm ha hall
    have hlt := hall p List.mem_cons_self
    have hr : handle (datagram addr p) r =
        some (sendAckPacket { r with recQueue := mapToQueue r.recQueue p } p) := by
      have hrec : receive (datagram addr p) r =
          sendAckPacket { r with recQueue := mapToQueue r.recQueue p } p := by
        simp [receive, hm, recvPacket, datagram, ha, (Nat.zero_lt_of_lt hlt).ne', hlt, hlt.ne']
      rw [handle, hrec]
      exact writeLoop_stop (by simp [hm]) _
    obtain ⟨acks, hacks⟩ := ih (sendAckPacket { r with recQueue := mapToQueue r.recQueue p } p)
      hm ha fun p' hp' => hall p' (List.mem_cons_of_mem p hp')
    rw [List.map_cons, receiveAll_cons, hr]
    exact ⟨acks, hacks⟩

/-- The slots of what is in the ring and of what goes there are occupied. -/
theorem foldl_mapToQueue_buflen : ∀ (ps : List RdtPacket) (rq : ReceiverQ) (j : ℕ),
    (rq.buflen j = 1 ∨ ∃ p ∈ ps, p.seqNum % window = j) →
    (ps.foldl mapToQueue rq).buflen j = 1 := by
  intro ps
  induction ps with
  | nil => exact fun rq j h => h.elim id fun ⟨p, hp, _⟩ => absurd hp List.not_mem_nil
  | cons p ps ih =>
    intro rq j h
    refine ih _ j ?_
    by_cases hj : j = p.seqNum % window
    · exact Or.inl (hj ▸ Function.update_self ..)
    · rcases h with h | ⟨p', hp', hmod⟩
      · exact Or.inl ((Function.update_of_ne hj ..).trans h)
      · rcases List.mem_cons.mp hp' with rfl | hp'
        · exact absurd hmod.symm hj
        · exact Or.inr ⟨p', hp', hmod⟩

/-- The packets from `2` to `4097` of a file. -/
def farPackets (file : List UInt8) : List RdtPacket :=
  (List.range 4096).map fun k => genuinePacket file (k + 2)

/-- They fill the ring. -/
theorem farPackets_fill (file : List UInt8) (rq : ReceiverQ) {j : ℕ} (hj : j < window) :
    ((farPackets file).foldl mapToQueue rq).buflen j = 1 := by
  refine foldl_mapToQueue_buflen _ rq j (Or.inr ?_)
  have hk : ∃ k < 4096, (k + 2) % window = j := by
    unfold window at hj ⊢
    by_cases h2 : 2 ≤ j
    · exact ⟨j - 2, by omega, by omega⟩
    · exact ⟨j + 4094, by omega, by omega⟩
  obtain ⟨k, hk, hmod⟩ := hk
  exact ⟨_, List.mem_map.mpr ⟨k, List.mem_range.mpr hk, rfl⟩, hmod⟩

/-- Packet `0` comes, then packets that fill the ring, then packet `1`. -/
theorem clogged_of_full (file : List UInt8) (hT : 2 < totalSeq file) {ps : List RdtPacket}
    (hps : ∀ p ∈ ps, 1 < p.seqNum)
    (hfull : ∀ j < window, (ps.foldl mapToQueue Receiver.init.recQueue).buflen j = 1) :
    ∃ r, receiveAll ((genuinePacket file 0 :: ps).map (datagram ⟨4000, 1⟩)) Receiver.init =
        some r ∧ r.mode = .receiving ∧
      Clogged (datagram ⟨4000, 1⟩ (genuinePacket file 1)) r := by
  obtain ⟨d0, hp0⟩ : ∃ d, genuinePacket file 0 = ⟨0, 0, maxPayloadLen, 0, d⟩ :=
    genuinePacket_inner (by omega)
  obtain ⟨d1, hp1⟩ : ∃ d, genuinePacket file 1 = ⟨1, 0, maxPayloadLen, 0, d⟩ :=
    genuinePacket_inner (by omega)
  have h0 : handle (datagram ⟨4000, 1⟩ ⟨0, 0, maxPayloadLen, 0, d0⟩) Receiver.init =
      some ⟨⟨4000, 1⟩, Receiver.init.recQueue, 1, d0.take maxPayloadLen, [⟨0, 1, 0⟩],
        .receiving⟩ := rfl
  obtain ⟨acks, hfill⟩ := receiveAll_beyond ⟨4000, 1⟩ ps
    ⟨⟨4000, 1⟩, Receiver.init.recQueue, 1, d0.take maxPayloadLen, [⟨0, 1, 0⟩], .receiving⟩
    rfl rfl hps
  rw [List.map_cons, receiveAll_cons, hp0, h0, hp1]
  exact ⟨_, hfill, rfl, ⟨rfl, rfl, by simp [datagram]⟩, hfull⟩

/-- A file of 4098 packets. -/
def cloggingFile : List UInt8 := List.replicate 5916069 0

theorem totalSeq_cloggingFile : totalSeq cloggingFile = 4098 := by
  unfold totalSeq cloggingFile
  rw [List.length_replicate]
  decide

/-- **A scan that does not end**, with genuine packets of a file alone: packet `0`, those from `2`
to `4097`, packet `1`. -/
theorem scan_spins : ¬ ∀ ds : List Datagram,
    (∀ d ∈ ds, ∃ q < totalSeq cloggingFile,
      d = datagram ⟨4000, 1⟩ (genuinePacket cloggingFile q)) →
    ∀ pre d post, ds = pre ++ d :: post → ∃ r, receiveAll pre Receiver.init = some r ∧
      (r.mode = .finished ∨ r.mode = .receiving ∧ HandlingEnds d r) := by
  intro h
  have hT := totalSeq_cloggingFile
  have hfar : ∀ p ∈ farPackets cloggingFile,
      ∃ q < totalSeq cloggingFile, 1 < q ∧ p = genuinePacket cloggingFile q := by
    intro p hp
    obtain ⟨k, hk, rfl⟩ := List.mem_map.mp hp
    have := List.mem_range.mp hk
    exact ⟨k + 2, by omega, by omega, rfl⟩
  have hfill : ∀ j < window, ((farPackets cloggingFile).foldl mapToQueue
      Receiver.init.recQueue).buflen j = 1 := fun j hj => farPackets_fill _ _ hj
  generalize farPackets cloggingFile = ps at hfar hfill
  obtain ⟨r, hr, hm, hclog⟩ := clogged_of_full cloggingFile (by omega) (fun p hp => by
    obtain ⟨q, -, hlt, rfl⟩ := hfar p hp
    exact hlt) hfill
  have hgen : ∀ d ∈ (genuinePacket cloggingFile 0 :: ps).map (datagram ⟨4000, 1⟩) ++
      [datagram ⟨4000, 1⟩ (genuinePacket cloggingFile 1)], ∃ q < totalSeq cloggingFile,
        d = datagram ⟨4000, 1⟩ (genuinePacket cloggingFile q) := by
    intro d hd
    rcases List.mem_append.mp hd with hd | hd
    · obtain ⟨p, hp, rfl⟩ := List.mem_map.mp hd
      rcases List.mem_cons.mp hp with rfl | hp
      · exact ⟨0, by omega, rfl⟩
      · obtain ⟨q, hq, -, rfl⟩ := hfar p hp
        exact ⟨q, hq, rfl⟩
    · exact ⟨1, by omega, List.mem_singleton.mp hd⟩
  obtain ⟨r', hr', hend⟩ := h _ hgen _ _ [] rfl
  obtain rfl := Option.some.inj (hr'.symm.trans hr)
  rcases hend with hf | ⟨-, he⟩
  · exact absurd (hm.symm.trans hf) Mode.noConfusion
  · exact (handlingEnds_iff hm).mp he hclog

end NetworkingLearning.Transfer
