import Mathlib.Data.Set.Insert
import NetworkingLearning.Transfer.Handling

/-!
# Reassembly in order (`receiver_main.c:69-112`, `receiver_main.c:186-231`)

The invariant of the receiver, for packets of one file from one address that arrive in any order and
with any repetition.

`A` is the set of the packets accepted so far, and `w` how far beyond `last_ack_num` a packet may be
when it arrives. The ring has no tags: a slot does not say which packet it holds, so that is a
matter of this bound. `RingOk` says which packets are in the slots, and the fields named `exact`
say, where `w ≤ WINDOW`, that these are all the packets accepted beyond the bytes written. The
invariant has a part for each mode (`ModeOk`), since acks are sent in the middle of a handling.

* `w` is a parameter: `Completion` asks nothing of it, `Integrity` takes `WINDOW`, and what speaks
  of recovery `WINDOW - 1`.
* `Arrived` is a list of arrivals, the last one first: each is a packet of the file, from the
  address that `recvPacket` takes it from, and below `last_ack_num + WINDOW` at the time.

Results:
* `receiverOk_receive`, `receiverOk_writeStep`: a datagram and a pass of the second loop of
  `check_and_sent_buffer` keep `ReceiverOk`.
* `reassembly`: for packets below `last_ack_num + WINDOW`, in any order and with any repetition, the
  receiver writes the payloads in order and once each, and finishes when it has accepted all.
-/

namespace NetworkingLearning.Transfer

open NetworkingLearning.Machine

/-! ## The ring -/

/-- Every occupied slot holds an accepted packet between `lo` and `hi`; in a slot that is `dirty`
its sequence number is overwritten. -/
def RingOk (pkts : ℕ → RdtPacket) (A : Set ℕ) (lo hi : ℕ) (dirty : ℕ → Prop) (rq : ReceiverQ) :
    Prop :=
  ∀ j < window, rq.buflen j = 1 → ∃ q ∈ A, q % window = j ∧ lo ≤ q ∧ q < hi ∧
    (rq.buffer j = pkts q ∨
      dirty j ∧ rq.buffer j = { pkts q with seqNum := (pkts q).ackNum })

section Ring

variable {pkts : ℕ → RdtPacket} {A A' : Set ℕ} {lo lo' hi hi' p : ℕ} {dirty dirty' : ℕ → Prop}
  {rq : ReceiverQ}

/-- What the slot of `p` holds is not before `p`. -/
theorem RingOk.le (h : RingOk pkts A lo hi dirty rq) (hp : p < lo + window)
    (hs : rq.buflen (p % window) = 1) : ∃ q ∈ A, q % window = p % window ∧ p ≤ q ∧ q < hi ∧
      (rq.buffer (p % window) = pkts q ∨ dirty (p % window) ∧
        rq.buffer (p % window) = { pkts q with seqNum := (pkts q).ackNum }) := by
  obtain ⟨q, hq, hmod, hlo, hhi, hb⟩ := h _ (slot_lt p) hs
  exact ⟨q, hq, hmod, le_of_mod_eq hmod hlo hp, hhi, hb⟩

/-- Within one span the slot of `p` holds `p`. -/
theorem RingOk.eq (h : RingOk pkts A lo hi dirty rq) (hhi : hi ≤ lo + window)
    (hp : lo ≤ p) (hp' : p < lo + window) (hs : rq.buflen (p % window) = 1) :
    p ∈ A ∧ p < hi ∧ (rq.buffer (p % window) = pkts p ∨ dirty (p % window) ∧
      rq.buffer (p % window) = { pkts p with seqNum := (pkts p).ackNum }) := by
  obtain ⟨q, hq, hmod, hqlo, hqhi, hb⟩ := h _ (slot_lt p) hs
  obtain rfl := eq_of_mod_eq hmod hqlo (hqhi.trans_le hhi) hp hp'
  exact ⟨hq, hqhi, hb⟩

theorem RingOk.mono (h : RingOk pkts A lo hi dirty rq) (hA : A ⊆ A') (hlo : lo' ≤ lo)
    (hhi : hi ≤ hi') (hd : ∀ j, dirty j → dirty' j) :
    RingOk pkts A' lo' hi' dirty' rq := by
  intro j hj hs
  obtain ⟨q, hq, hmod, hqlo, hqhi, hb⟩ := h j hj hs
  exact ⟨q, hA hq, hmod, hlo.trans hqlo, hqhi.trans_le hhi,
    hb.imp_right fun hb => ⟨hd j hb.1, hb.2⟩⟩

/-- `map_to_queue` of a packet in range. -/
theorem RingOk.insert {q : ℕ} (h : RingOk pkts A lo hi dirty rq) (hseq : (pkts q).seqNum = q)
    (hlo : lo ≤ q) (hhi : q < hi) :
    RingOk pkts (insert q A) lo hi dirty (mapToQueue rq (pkts q)) := fun j hj hs => by
  simp only [mapToQueue, hseq] at hs ⊢
  by_cases hjq : j = q % window
  · subst hjq
    exact ⟨q, Set.mem_insert q A, rfl, hlo, hhi, Or.inl (Function.update_self ..)⟩
  · rw [Function.update_of_ne hjq] at hs ⊢
    obtain ⟨q', hq', hrest⟩ := h j hj hs
    exact ⟨q', Set.mem_insert_of_mem q hq', hrest⟩

/-- `build_ack_packet` overwrites the sequence number of the packet in a slot. -/
theorem RingOk.renumber (h : RingOk pkts A lo hi (fun _ => False) rq) (slot : ℕ)
    (ackPacket : AckPacket) (ackNum : ℕ) :
    RingOk pkts A lo hi (fun j => j = slot) { rq with
      buffer := Function.update rq.buffer slot
        (buildAckPacket ackPacket (rq.buffer slot) ackNum).2 } := fun j hj hs => by
  obtain ⟨q, hq, hmod, hlo, hhi, hb | hb⟩ := h j hj hs
  · refine ⟨q, hq, hmod, hlo, hhi, ?_⟩
    by_cases hjs : j = slot
    · subst hjs
      refine Or.inr ⟨rfl, (Function.update_self ..).trans ?_⟩
      rw [← hb]
      rfl
    · exact Or.inl ((Function.update_of_ne hjs ..).trans hb)
  · exact hb.1.elim

/-- Clearing the slot of `lo` leaves packets after `lo`. -/
theorem RingOk.clear (h : RingOk pkts A lo hi dirty rq) (packet : RdtPacket)
    (hd : ∀ j, j ≠ lo % window → dirty j → dirty' j) :
    RingOk pkts A (lo + 1) hi dirty' ⟨Function.update rq.buffer (lo % window) packet,
      Function.update rq.buflen (lo % window) 0⟩ := fun j hj hs => by
  by_cases hjl : j = lo % window
  · subst hjl
    exact absurd (hs.symm.trans (Function.update_self ..)) (by decide)
  · simp only [Function.update_of_ne hjl] at hs ⊢
    obtain ⟨q, hq, hmod, hlo, hhi, hb⟩ := h j hj hs
    have hne : q ≠ lo := fun e => hjl (by rw [← hmod, e])
    exact ⟨q, hq, hmod, by omega, hhi, hb.imp_right fun hb => ⟨hd j hjl hb.1, hb.2⟩⟩

end Ring

/-! ## The first loop of `check_and_sent_buffer` -/

section Scan

variable {buflen : ℕ → ℕ}

/-- The loop stops at the first slot that is not occupied. -/
theorem ackScan_some : ∀ (fuel n N : ℕ),
    (∀ p, n ≤ p → p < n + fuel → buflen (p % window) = 1 → p + 1 < 2 ^ 32) →
    ackScan buflen fuel n = some N →
      n ≤ N ∧ N ≤ n + fuel ∧ (∀ p, n ≤ p → p < N → buflen (p % window) = 1) ∧
      buflen (N % window) ≠ 1 := by
  intro fuel
  induction fuel with
  | zero =>
    intro n N _ h
    rw [ackScan] at h
    split at h
    · exact absurd h (by simp)
    · rename_i hs
      obtain rfl := Option.some.inj h
      exact ⟨le_refl _, le_refl _, fun p h1 h2 => absurd h2 (by omega), hs⟩
  | succ fuel ih =>
    intro n N hb h
    rw [ackScan] at h
    split at h
    · rename_i hs
      rw [u32_of_lt (hb n (le_refl n) (by omega) hs)] at h
      obtain ⟨h1, h2, h3, h4⟩ := ih (n + 1) N (fun p hp hp' => hb p (by omega) (by omega)) h
      refine ⟨by omega, by omega, fun p hp hpN => ?_, h4⟩
      rcases Nat.eq_or_lt_of_le hp with rfl | hp
      · exact hs
      · exact h3 p hp hpN
    · rename_i hs
      obtain rfl := Option.some.inj h
      exact ⟨le_refl _, by omega, fun p h1 h2 => absurd h2 (by omega), hs⟩

end Scan

/-! ## The invariant -/

/-- The number acked last. -/
def Receiver.acked (r : Receiver) : ℕ :=
  match r.mode with
  | .writing ackNum _ _ => ackNum
  | _ => r.lastAckNum

/-- New acks of the number acked last. -/
theorem acks_append {acks new : List AckPacket} {l l' : ℕ} (h : ∀ a ∈ acks, a.ackNum ≤ l)
    (hle : l ≤ l') (hnew : ∀ a ∈ new, a.ackNum = l') : ∀ a ∈ acks ++ new, a.ackNum ≤ l' := by
  intro a ha
  rcases List.mem_append.mp ha with ha | ha
  · exact (h a ha).trans hle
  · exact (hnew a ha).le

section Invariant

variable (pkts : ℕ → RdtPacket) (total w : ℕ) (A : Set ℕ)

/-- At `recvPacket`. -/
structure Receiving (r : Receiver) : Prop where
  last_lt : r.lastAckNum < total
  ring : RingOk pkts A (r.lastAckNum + 1) (r.lastAckNum + w + 1) (fun _ => False) r.recQueue
  exact : w ≤ window → (∀ p < r.lastAckNum, p ∈ A) ∧ r.lastAckNum ∉ A ∧
    (∀ q ∈ A, q ≤ r.lastAckNum + w) ∧
    (∀ q ∈ A, r.lastAckNum < q → r.recQueue.buflen (q % window) = 1) ∧
    r.file = payloads pkts r.lastAckNum

/-- In the second loop of `check_and_sent_buffer`, at `ret`. -/
structure Writing (ackNum ret : ℕ) (retval : ℤ) (r : Receiver) : Prop where
  last_lt : r.lastAckNum < total
  last_le : r.lastAckNum ≤ ret
  ret_le : ret ≤ ackNum
  near : ackNum < r.lastAckNum + window
  filled : ∀ p, ret ≤ p → p < ackNum → r.recQueue.buflen (p % window) = 1
  stop : r.recQueue.buflen (ackNum % window) ≠ 1
  ring : RingOk pkts A ret (r.lastAckNum + w)
    (fun j => ret < ackNum ∧ j = (ackNum - 1) % window) r.recQueue
  fin : ret = total → retval = 1
  exact : w ≤ window → (∀ p < ret, p ∈ A) ∧ (∀ q ∈ A, q < r.lastAckNum + w) ∧
    (∀ q ∈ A, ret ≤ q → r.recQueue.buflen (q % window) = 1) ∧
    r.file = payloads pkts ret ∧ (retval = 1 → ret = total)

/-- The state of the loop. -/
def ModeOk (r : Receiver) : Prop :=
  match r.mode with
  | .receiving => Receiving pkts total w A r
  | .writing ackNum ret retval => Writing pkts total w A ackNum ret retval r
  | .spinning => r.lastAckNum < total ∧ (w ≤ window → r.file = payloads pkts r.lastAckNum)
  | .finished => r.lastAckNum ≤ total ∧ (w ≤ window → r.lastAckNum = total ∧
      (∀ p < total, p ∈ A) ∧ r.file = payloads pkts total)

/-- The state of the receiver that has accepted the packets in `A`. -/
structure ReceiverOk (r : Receiver) : Prop where
  accepted : ∀ q ∈ A, q < total
  reach : r.acked = 0 ∨ ∃ q ∈ A, r.acked ≤ q + 1
  acks : ∀ a ∈ r.acks, a.ackNum ≤ r.acked
  mode : ModeOk pkts total w A r

end Invariant

section Steps

variable {pkts : ℕ → RdtPacket} {total w : ℕ} {A : Set ℕ} {r : Receiver} {ackNum ret : ℕ}
  {retval : ℤ}

@[simp] theorem Receiver.acked_receiving (hm : r.mode = .receiving) : r.acked = r.lastAckNum := by
  rw [Receiver.acked, hm]

@[simp] theorem Receiver.acked_writing (hm : r.mode = .writing ackNum ret retval) :
    r.acked = ackNum := by
  rw [Receiver.acked, hm]

theorem ReceiverOk.receiving (h : ReceiverOk pkts total w A r) (hm : r.mode = .receiving) :
    Receiving pkts total w A r := by
  simpa only [ModeOk, hm] using h.mode

theorem ReceiverOk.writing (h : ReceiverOk pkts total w A r)
    (hm : r.mode = .writing ackNum ret retval) : Writing pkts total w A ackNum ret retval r := by
  simpa only [ModeOk, hm] using h.mode

theorem ReceiverOk.spinning (h : ReceiverOk pkts total w A r) (hm : r.mode = .spinning) :
    r.lastAckNum < total ∧ (w ≤ window → r.file = payloads pkts r.lastAckNum) := by
  simpa only [ModeOk, hm] using h.mode

theorem ReceiverOk.finished (h : ReceiverOk pkts total w A r) (hm : r.mode = .finished) :
    r.lastAckNum ≤ total ∧ (w ≤ window → r.lastAckNum = total ∧
      (∀ p < total, p ∈ A) ∧ r.file = payloads pkts total) := by
  simpa only [ModeOk, hm] using h.mode

theorem receiverOk_init (hT : 0 < total) : ReceiverOk pkts total w ∅ Receiver.init where
  accepted q hq := absurd hq (Set.notMem_empty q)
  reach := Or.inl rfl
  acks a ha := absurd ha List.not_mem_nil
  mode :=
    { last_lt := hT
      ring := fun _ _ hs => absurd hs (show (0 : ℕ) ≠ 1 by decide)
      exact := fun _ => ⟨fun p hp => absurd hp (Nat.not_lt_zero p), Set.notMem_empty _,
        fun q hq => absurd hq (Set.notMem_empty q),
        fun q hq => absurd hq (Set.notMem_empty q), rfl⟩ }

/-! ## The second loop of `check_and_sent_buffer` -/

theorem Writing.ackNum_le (h : Writing pkts total w A ackNum ret retval r)
    (hA : ∀ q ∈ A, q < total) (hle : ret ≤ total) : ackNum ≤ total := by
  rcases Nat.eq_or_lt_of_le h.ret_le with heq | hlt
  · omega
  · have h1 := h.near
    have h2 := h.last_le
    obtain ⟨q, hq, -, hle, -⟩ := h.ring.le (p := ackNum - 1) (by omega)
      (h.filled _ (by omega) (by omega))
    have := hA q hq
    omega

/-- **One pass of the second loop** writes the packet in the slot and clears it. -/
theorem writing_pass (hN : Numbered pkts total) (hA : ∀ q ∈ A, q < total)
    (h : Writing pkts total w A ackNum ret retval r) (hlt : ret < ackNum) :
    Writing pkts total w A ackNum (ret + 1)
      (if (r.recQueue.buffer (ret % window)).finByte = 1 then 1 else retval)
      { r with
        file := writeToFile r.file (r.recQueue.buffer (ret % window))
        recQueue :=
          ⟨Function.update r.recQueue.buffer (ret % window) RdtPacket.zero,
            Function.update r.recQueue.buflen (ret % window) 0⟩
        mode := .writing ackNum (ret + 1)
          (if (r.recQueue.buffer (ret % window)).finByte = 1 then 1 else retval) } := by
  have h1 := h.near
  have h2 := h.last_le
  have hs := h.filled ret (le_refl ret) hlt
  -- another number of the span lies in another slot
  have hne : ∀ p, ret < p → p < ret + window → p % window ≠ ret % window := fun p hp hp' he =>
    absurd (eq_of_mod_eq he hp.le hp' (le_refl ret) (by omega)) (by omega)
  obtain ⟨q, hq, hmod, hle, hhi, hb⟩ := h.ring.le (p := ret) (by omega) hs
  have hqT := hA q hq
  -- the packet, but for its sequence number
  obtain ⟨hfin, hbytes⟩ : (r.recQueue.buffer (ret % window)).finByte = (pkts q).finByte ∧
      (r.recQueue.buffer (ret % window)).payloadBytes = (pkts q).payloadBytes := by
    rcases hb with hb | ⟨-, hb⟩ <;> rw [hb] <;> exact ⟨rfl, rfl⟩
  refine ⟨h.last_lt, by simp only; omega, hlt, h1, fun p hp hp' => ?_, ?_, ?_, fun hT => ?_,
    fun hw => ?_⟩
  · simp only
    rw [Function.update_of_ne (hne p (by omega) (by omega))]
    exact h.filled p (by omega) hp'
  · simp only
    rw [Function.update_of_ne (hne ackNum hlt (by omega))]
    exact h.stop
  · refine h.ring.clear _ fun j hj hd => ⟨?_, hd.2⟩
    by_contra hlast
    exact hj (hd.2.trans (by rw [show ackNum - 1 = ret by omega]))
  · rw [if_pos (hfin.trans ((hN.finByte q).mpr (by omega)))]
  · obtain ⟨hbelow, hbound, hocc, hfile, hret⟩ := h.exact hw
    obtain rfl : q = ret :=
      eq_of_mod_eq hmod (h2.trans hle) (by omega) h2 (by omega)
    refine ⟨fun p hp => ?_, hbound, fun x hx hle' => ?_, ?_, fun hval => ?_⟩
    · rcases Nat.lt_succ_iff_lt_or_eq.mp hp with hp | rfl
      · exact hbelow p hp
      · exact hq
    · have := hbound x hx
      simp only
      rw [Function.update_of_ne (hne x (by omega) (by omega))]
      exact hocc x hx (by omega)
    · rw [payloads_succ, ← hfile, ← hbytes]
      rfl
    · split at hval
      · rename_i hf
        exact (hN.finByte q).mp (hfin.symm.trans hf)
      · have := hret hval
        omega

/-- **The return from the second loop**: `last_ack_num` is the number acked before the loop. -/
theorem writing_return (h : Writing pkts total w A ackNum ret retval r) (hge : ackNum ≤ ret)
    (hT : ret ≤ total) (hval : retval ≠ 1) :
    Receiving pkts total w A { r with lastAckNum := ret, mode := .receiving } := by
  obtain rfl : ret = ackNum := le_antisymm h.ret_le hge
  have h1 := h.last_le
  have hne : ret ≠ total := fun he => hval (h.fin he)
  refine ⟨by simp only; omega, fun j hj hs => ?_, fun hw => ?_⟩
  · obtain ⟨q, hq, hmod, hle, hhi, hb⟩ := h.ring j hj hs
    have hqr : q ≠ ret := fun he => h.stop (by rw [← he, hmod]; exact hs)
    refine ⟨q, hq, hmod, by simp only; omega, by simp only; omega, hb.imp_right fun hd => ?_⟩
    exact absurd hd.1.1 (lt_irrefl ret)
  · obtain ⟨hbelow, hbound, hocc, hfile, -⟩ := h.exact hw
    refine ⟨hbelow, fun hret => h.stop (hocc ret hret (le_refl ret)), fun q hq => ?_,
      fun q hq hlt => hocc q hq (le_of_lt hlt), hfile⟩
    have := hbound q hq
    simp only
    omega

theorem ReceiverOk.ret_le (h : ReceiverOk pkts total w A r)
    (hm : r.mode = .writing ackNum ret retval) : ret ≤ total := by
  have hreach := h.reach
  rw [Receiver.acked_writing hm] at hreach
  have h1 := (h.writing hm).last_le
  have h2 := (h.writing hm).ret_le
  have h3 := (h.writing hm).last_lt
  rcases hreach with h0 | ⟨q, hq, hle⟩
  · omega
  · have := h.accepted q hq
    omega

/-- **The bytes written** are the payloads of the first packets, if arrivals are within the ring. -/
theorem ReceiverOk.file_eq (h : ReceiverOk pkts total w A r) (hw : w ≤ window) :
    ∃ l ≤ total, r.file = payloads pkts l ∧ (r.mode = .finished → l = total) := by
  cases hm : r.mode with
  | receiving =>
    have hr := h.receiving hm
    exact ⟨_, hr.last_lt.le, (hr.exact hw).2.2.2.2, fun hf => Mode.noConfusion hf⟩
  | writing ackNum ret retval =>
    exact ⟨ret, h.ret_le hm, ((h.writing hm).exact hw).2.2.2.1, fun hf => Mode.noConfusion hf⟩
  | spinning =>
    obtain ⟨hlt, hfile⟩ := h.spinning hm
    exact ⟨_, hlt.le, hfile hw, fun hf => Mode.noConfusion hf⟩
  | finished => exact ⟨total, le_refl _, ((h.finished hm).2 hw).2.2, fun _ => rfl⟩

/-- What the second loop does at `ret`: a pass while `ret` is below the number acked, and then the
return. -/
theorem writeStep_spec (hN : Numbered pkts total) (h : ReceiverOk pkts total w A r)
    (hm : r.mode = .writing ackNum ret retval) :
    (ret < ackNum ∧ ∃ rq file retval',
      writeStep r = { r with
        recQueue := rq
        file := file
        mode := .writing ackNum (ret + 1) retval' } ∧
      Writing pkts total w A ackNum (ret + 1) retval' (writeStep r)) ∨
    (ret = ackNum ∧ retval = 1 ∧ writeStep r = waitForBreak { r with lastAckNum := ackNum } ∧
      ModeOk pkts total w A (writeStep r)) ∨
    (ret = ackNum ∧ writeStep r = { r with lastAckNum := ackNum, mode := .receiving } ∧
      Receiving pkts total w A (writeStep r)) := by
  have hmode := h.writing hm
  have hretT := h.ret_le hm
  have hT := hN.total_lt
  have hret := hmode.ret_le
  rcases Nat.eq_or_lt_of_le hret with rfl | hlt
  · have hs := hmode.stop
    have heq : writeStep r = if retval = 1 then waitForBreak { r with lastAckNum := ret }
        else { r with lastAckNum := ret, mode := .receiving } := by
      simp only [writeStep, hm, if_neg hs]
    rw [heq]
    refine Or.inr ?_
    split
    · rename_i hval
      refine Or.inl ⟨rfl, hval, rfl, hretT, fun hw => ?_⟩
      obtain ⟨hbelow, -, -, hfile, hret⟩ := hmode.exact hw
      obtain rfl := hret hval
      exact ⟨rfl, hbelow, hfile⟩
    · rename_i hval
      exact Or.inr ⟨rfl, rfl, writing_return hmode (le_refl ret) hretT hval⟩
  · have hack := hmode.ackNum_le h.accepted hretT
    have hpass := writing_pass hN h.accepted hmode hlt
    have heq : writeStep r = { r with
        file := writeToFile r.file (r.recQueue.buffer (ret % window))
        recQueue :=
          ⟨Function.update r.recQueue.buffer (ret % window) RdtPacket.zero,
            Function.update r.recQueue.buflen (ret % window) 0⟩
        mode := .writing ackNum (ret + 1)
          (if (r.recQueue.buffer (ret % window)).finByte = 1 then 1 else retval) } := by
      simp only [writeStep, hm, if_pos (hmode.filled ret (le_refl ret) hlt)]
      rw [u32_of_lt (by omega)]
    exact Or.inl ⟨hlt, _, _, _, heq, heq ▸ hpass⟩

/-- **A pass of the second loop of `check_and_sent_buffer`, or its return**, keeps the invariant. -/
theorem receiverOk_writeStep (hN : Numbered pkts total) (h : ReceiverOk pkts total w A r) :
    ReceiverOk pkts total w A (writeStep r) ∧ (writeStep r).acked = r.acked := by
  cases hm : r.mode with
  | writing ackNum ret retval =>
    have hreach := h.reach
    have hacks := h.acks
    have hacked := Receiver.acked_writing hm
    rw [hacked] at hreach hacks
    rw [hacked]
    rcases writeStep_spec hN h hm with ⟨-, rq, file, retval', heq, hw⟩ | ⟨-, -, heq, hmode⟩ |
      ⟨-, heq, hr⟩
    · rw [heq] at hw ⊢
      exact ⟨⟨h.accepted, hreach, hacks, hw⟩, rfl⟩
    · rw [heq] at hmode ⊢
      have hacks' : ∀ a ∈ r.acks ++ List.replicate 45 ⟨0, ackNum, 1⟩, a.ackNum ≤ ackNum :=
        acks_append hacks (le_refl ackNum) fun a ha =>
          congrArg AckPacket.ackNum (List.eq_of_mem_replicate ha)
      exact ⟨⟨h.accepted, hreach, hacks', hmode⟩, rfl⟩
    · rw [heq] at hr ⊢
      exact ⟨⟨h.accepted, hreach, hacks, hr⟩, rfl⟩
  | receiving =>
    rw [writeStep, hm]
    exact ⟨h, rfl⟩
  | spinning =>
    rw [writeStep, hm]
    exact ⟨h, rfl⟩
  | finished =>
    rw [writeStep, hm]
    exact ⟨h, rfl⟩

/-! ## A datagram -/

/-- What the scan for the ack needs: nothing before `last_ack_num` is left in the ring. -/
structure Scanning (pkts : ℕ → RdtPacket) (total w : ℕ) (A : Set ℕ) (r : Receiver) : Prop where
  last_lt : r.lastAckNum < total
  ring : RingOk pkts A r.lastAckNum (r.lastAckNum + w) (fun _ => False) r.recQueue
  exact : w ≤ window → (∀ p < r.lastAckNum, p ∈ A) ∧ (∀ q ∈ A, q < r.lastAckNum + w) ∧
    (∀ q ∈ A, r.lastAckNum ≤ q → r.recQueue.buflen (q % window) = 1) ∧
    r.file = payloads pkts r.lastAckNum

/-- **The first half of `check_and_sent_buffer`** sends one ack and enters the second loop, or every
slot is occupied. -/
theorem checkAndSentBuffer_spec (hT : total < 2 ^ 32) (hA : ∀ q ∈ A, q < total)
    (h : Scanning pkts total w A r) (pkt : RdtPacket) :
    (checkAndSentBuffer r pkt = { r with mode := .spinning } ∧
      ∀ j < window, r.recQueue.buflen j = 1) ∨
    ∃ rq a, checkAndSentBuffer r pkt = { r with
        recQueue := rq
        acks := r.acks ++ [a]
        mode := .writing a.ackNum r.lastAckNum 0 } ∧
      Writing pkts total w A a.ackNum r.lastAckNum 0 { r with
        recQueue := rq
        acks := r.acks ++ [a]
        mode := .writing a.ackNum r.lastAckNum 0 } := by
  have hlast := h.last_lt
  have hbound : ∀ p, r.lastAckNum ≤ p → p < r.lastAckNum + window →
      r.recQueue.buflen (p % window) = 1 → p + 1 < 2 ^ 32 := by
    intro p hp hp' hs
    obtain ⟨q, hq, -, hle, -⟩ := h.ring.le hp' hs
    have := hA q hq
    omega
  cases hscan : ackScan r.recQueue.buflen window r.lastAckNum with
  | none =>
    exact Or.inl ⟨by rw [checkAndSentBuffer, hscan], (ackScan_none_iff _).mp hscan⟩
  | some N =>
    obtain ⟨h1, h2, hfilled, hstop⟩ := ackScan_some _ _ _ hbound hscan
    have hnear : N < r.lastAckNum + window := by
      refine lt_of_le_of_ne h2 fun he => hstop ?_
      rw [he, Nat.add_mod_right]
      exact hfilled _ (le_refl _) (by rw [he]; exact Nat.lt_add_of_pos_right (by decide))
    refine Or.inr ?_
    rw [checkAndSentBuffer, hscan]
    simp only
    split
    · rename_i hlt
      have hN := hbound (N - 1) (by omega) (by omega) (hfilled _ (by omega) (by omega))
      rw [sub32_of_le (by omega) (by omega)]
      refine ⟨_, _, rfl, hlast, le_refl _, h1, hnear, hfilled, hstop, ?_,
        fun he => absurd hlast (by simp [he]), fun hw => ?_⟩
      · exact (h.ring.renumber ((N - 1) % window) ⟨0, 0, 0⟩ N).mono (le_refl A)
          (le_refl _) (le_refl _) fun j hj => ⟨hlt, hj⟩
      · obtain ⟨hbelow, hup, hocc, hfile⟩ := h.exact hw
        exact ⟨hbelow, hup, hocc, hfile, fun hf => absurd hf (by decide)⟩
    · rename_i hge
      refine ⟨r.recQueue, _, rfl, hlast, le_refl _, h1, hnear, hfilled, hstop, ?_,
        fun he => absurd hlast (by simp [he]), fun hw => ?_⟩
      · exact h.ring.mono (le_refl A) (le_refl _) (le_refl _) fun j hj => hj.elim
      · obtain ⟨hbelow, hup, hocc, hfile⟩ := h.exact hw
        exact ⟨hbelow, hup, hocc, hfile, fun hf => absurd hf (by decide)⟩

/-- What a datagram does once `recvPacket` accepts it: before the exit one ack is sent, and it
carries the new `last_ack_num`. -/
structure Accepted (pkts : ℕ → RdtPacket) (total w : ℕ) (A : Set ℕ) (r r' : Receiver) : Prop where
  ok : ReceiverOk pkts total w A r'
  le_acked : r.lastAckNum ≤ r'.acked
  not_spinning : w < window → r'.mode ≠ .spinning
  one_ack : r'.mode ≠ .spinning → r'.mode ≠ .finished →
    ∃ a, r'.acks = r.acks ++ [a] ∧ a.ackNum = r'.acked

/-- The packet `last_ack_num` is written. -/
def Receiver.written (r : Receiver) (packet : RdtPacket) : Receiver :=
  { r with
    file := writeToFile r.file packet
    lastAckNum := r.lastAckNum + 1 }

@[simp] theorem Receiver.written_lastAckNum (packet : RdtPacket) :
    (r.written packet).lastAckNum = r.lastAckNum + 1 := rfl

/-- What `exact` says once it is. -/
theorem Receiving.written (hr : Receiving pkts total w A r) (hw : w ≤ window) :
    (∀ p < r.lastAckNum + 1, p ∈ insert r.lastAckNum A) ∧
      (∀ q ∈ insert r.lastAckNum A, q < r.lastAckNum + 1 + w) ∧
      (∀ q ∈ insert r.lastAckNum A, r.lastAckNum + 1 ≤ q →
        r.recQueue.buflen (q % window) = 1) ∧
      writeToFile r.file (pkts r.lastAckNum) = payloads pkts (r.lastAckNum + 1) := by
  obtain ⟨hbelow, -, hup, hocc, hfile⟩ := hr.exact hw
  refine ⟨fun p hp => ?_, fun q hq => ?_, fun q hq hle => ?_, ?_⟩
  · rcases Nat.lt_succ_iff_lt_or_eq.mp hp with hp | rfl
    · exact Set.mem_insert_of_mem _ (hbelow p hp)
    · exact Set.mem_insert _ A
  · rcases Set.mem_insert_iff.mp hq with rfl | hq
    · omega
    · have := hup q hq
      omega
  · rcases Set.mem_insert_iff.mp hq with rfl | hq
    · omega
    · exact hocc q hq hle
  · rw [payloads_succ, ← hfile]
    rfl

theorem ReceiverOk.insert_lt (h : ReceiverOk pkts total w A r) {p : ℕ} (hp : p < total) :
    ∀ q ∈ insert p A, q < total := by
  intro q hq
  rcases Set.mem_insert_iff.mp hq with rfl | hq
  · exact hp
  · exact h.accepted q hq

theorem ReceiverOk.acks_le (h : ReceiverOk pkts total w A r) (hm : r.mode = .receiving) :
    ∀ a ∈ r.acks, a.ackNum ≤ r.lastAckNum := by
  have := h.acks
  rwa [Receiver.acked_receiving hm] at this

/-- The packet `last_ack_num` with the fin byte. -/
theorem accepted_fin (hN : Numbered pkts total) (h : ReceiverOk pkts total w A r)
    (hr : Receiving pkts total w A r) (hm : r.mode = .receiving)
    (hfin : (pkts r.lastAckNum).finByte = 1) :
    Accepted pkts total w (insert r.lastAckNum A) r
      (waitForBreak (r.written (pkts r.lastAckNum))) := by
  have hT := (hN.finByte _).mp hfin
  have hacks : ∀ a ∈ r.acks ++ List.replicate 45 ⟨0, r.lastAckNum + 1, 1⟩,
      a.ackNum ≤ r.lastAckNum + 1 := acks_append (h.acks_le hm) (Nat.le_succ _) fun a ha =>
    congrArg AckPacket.ackNum (List.eq_of_mem_replicate ha)
  refine ⟨⟨h.insert_lt hr.last_lt, Or.inr ⟨_, Set.mem_insert _ A, le_refl _⟩, hacks, hT.le,
    fun hw => ?_⟩, Nat.le_succ _, fun _ => Mode.noConfusion, fun _ hne => absurd rfl hne⟩
  obtain ⟨hbelow, -, -, hfile⟩ := hr.written hw
  simp only [waitForBreak, Receiver.written]
  rw [← hT]
  exact ⟨rfl, hbelow, hfile⟩

/-- The packet `last_ack_num` without it. -/
theorem accepted_scan (hN : Numbered pkts total) (h : ReceiverOk pkts total w A r)
    (hr : Receiving pkts total w A r) (hm : r.mode = .receiving)
    (hfin : ¬(pkts r.lastAckNum).finByte = 1) :
    Accepted pkts total w (insert r.lastAckNum A) r
      (checkAndSentBuffer (r.written (pkts r.lastAckNum)) (pkts r.lastAckNum)) := by
  have hlast := hr.last_lt
  have hself := Set.mem_insert r.lastAckNum A
  have hA := h.insert_lt hlast
  have hacks := h.acks_le hm
  have hne : r.lastAckNum + 1 ≠ total := fun he => hfin ((hN.finByte _).mpr he)
  have hscan : Scanning pkts total w (insert r.lastAckNum A)
      (r.written (pkts r.lastAckNum)) :=
    ⟨by simp only [Receiver.written_lastAckNum]; omega,
      hr.ring.mono (Set.subset_insert _ A) (le_refl _)
        (by simp only [Receiver.written_lastAckNum]; omega) fun j hj => hj, hr.written⟩
  rcases checkAndSentBuffer_spec hN.total_lt hA hscan (pkts r.lastAckNum) with
    ⟨heq, hfull⟩ | ⟨rq, a, heq, hwr⟩
  · rw [heq]
    refine ⟨⟨hA, Or.inr ⟨_, hself, le_refl _⟩,
      fun a ha => (hacks a ha).trans (Nat.le_succ _), hscan.last_lt,
      fun hw => (hr.written hw).2.2.2⟩, Nat.le_succ _, fun hw => ?_, fun hne => absurd rfl hne⟩
    -- the slot before the span is free
    obtain ⟨q, -, -, hle, hhi, -⟩ := hscan.ring.le (p := r.lastAckNum + 1 + w)
      (by simp only [Receiver.written_lastAckNum]; omega) (hfull _ (slot_lt _))
    rw [Receiver.written_lastAckNum] at hhi
    omega
  · rw [heq]
    have hle : r.lastAckNum ≤ a.ackNum := (Nat.le_succ _).trans hwr.ret_le
    have hacks' : ∀ b ∈ r.acks ++ [a], b.ackNum ≤ a.ackNum :=
      acks_append hacks hle fun b hb => congrArg AckPacket.ackNum (List.mem_singleton.mp hb)
    refine ⟨⟨hA, ?_, hacks', hwr⟩, hle, fun _ => Mode.noConfusion, fun _ _ => ⟨a, rfl, rfl⟩⟩
    rcases Nat.eq_or_lt_of_le hwr.ret_le with he | hlt
    · exact Or.inr ⟨_, hself, he.ge⟩
    · have h1 := hwr.near
      rw [Receiver.written_lastAckNum] at h1 hlt
      obtain ⟨q, hq, -, hle, -⟩ := hwr.ring.le (p := a.ackNum - 1)
        (by simp only [Receiver.written_lastAckNum]; omega)
        (hwr.filled _ (by simp only [Receiver.written_lastAckNum]; omega) (by omega))
      exact Or.inr ⟨q, hq, show a.ackNum ≤ q + 1 by omega⟩

/-- The packet `last_ack_num`. -/
theorem accepted_next (hN : Numbered pkts total) (h : ReceiverOk pkts total w A r)
    (hr : Receiving pkts total w A r) (hm : r.mode = .receiving) :
    Accepted pkts total w (insert r.lastAckNum A) r
      (if (pkts r.lastAckNum).finByte = 1 then waitForBreak (r.written (pkts r.lastAckNum))
      else checkAndSentBuffer (r.written (pkts r.lastAckNum)) (pkts r.lastAckNum)) := by
  split
  · rename_i hfin
    exact accepted_fin hN h hr hm hfin
  · rename_i hfin
    exact accepted_scan hN h hr hm hfin

/-- A packet that leaves `last_ack_num` as it is, is acked with it. -/
theorem accepted_ack {q : ℕ} (rq : ReceiverQ) (h : ReceiverOk pkts total w A r)
    (hm : r.mode = .receiving) (hq : q < total)
    (hr : Receiving pkts total w (insert q A) { r with recQueue := rq }) (packet : RdtPacket) :
    Accepted pkts total w (insert q A) r
      (sendAckPacket { r with recQueue := rq } packet) := by
  have hreach := h.reach
  have hacked : (sendAckPacket { r with recQueue := rq } packet).acked = r.lastAckNum := by
    rw [Receiver.acked_receiving (by simpa using hm), sendAckPacket_lastAckNum]
  rw [Receiver.acked_receiving hm] at hreach
  have hmode : ModeOk pkts total w (insert q A)
      (sendAckPacket { r with recQueue := rq } packet) := by
    simp only [ModeOk, sendAckPacket, hm]
    exact ⟨hr.last_lt, hr.ring, hr.exact⟩
  have hacks' : ∀ a ∈ (sendAckPacket { r with recQueue := rq } packet).acks,
      a.ackNum ≤ r.lastAckNum := acks_append (h.acks_le hm) (le_refl _) fun a ha =>
    congrArg AckPacket.ackNum (List.mem_singleton.mp ha)
  refine ⟨⟨h.insert_lt hq, ?_, hacked.symm ▸ hacks', hmode⟩, hacked.ge, fun _ hs => ?_,
    fun _ _ => ⟨_, rfl, hacked.symm⟩⟩
  · rw [hacked]
    exact hreach.imp_right fun h => h.imp fun p hp => ⟨Set.mem_insert_of_mem q hp.1, hp.2⟩
  · exact absurd (hm.symm.trans hs) Mode.noConfusion

/-- A packet beyond `last_ack_num` goes to the ring. -/
theorem accepted_beyond (hN : Numbered pkts total) (h : ReceiverOk pkts total w A r)
    (hr : Receiving pkts total w A r) (hm : r.mode = .receiving) {q : ℕ}
    (hq : q < total) (hlt : r.lastAckNum < q) (hle : q ≤ r.lastAckNum + w) :
    Accepted pkts total w (insert q A) r
      (sendAckPacket { r with recQueue := mapToQueue r.recQueue (pkts q) } (pkts q)) := by
  refine accepted_ack (mapToQueue r.recQueue (pkts q)) h hm hq ⟨hr.last_lt,
    hr.ring.insert (hN.seqNum q) hlt (by omega), fun hw => ?_⟩ (pkts q)
  obtain ⟨hbelow, hnot, hup, hocc, hfile⟩ := hr.exact hw
  refine ⟨fun p hp => Set.mem_insert_of_mem q (hbelow p hp), fun hmem => ?_, fun p hp => ?_,
    fun p hp hlt => ?_, hfile⟩
  · rcases Set.mem_insert_iff.mp hmem with he | hmem
    · simp only at he
      omega
    · exact hnot hmem
  · rcases Set.mem_insert_iff.mp hp with rfl | hp
    · exact hle
    · exact hup p hp
  · simp only [mapToQueue, hN.seqNum]
    by_cases hpq : p % window = q % window
    · rw [hpq, Function.update_self]
    · rw [Function.update_of_ne hpq]
      rcases Set.mem_insert_iff.mp hp with rfl | hp
      · exact absurd rfl hpq
      · exact hocc p hp hlt

/-- A packet before `last_ack_num` is acked again. -/
theorem accepted_before (h : ReceiverOk pkts total w A r)
    (hr : Receiving pkts total w A r) (hm : r.mode = .receiving) {q : ℕ}
    (hlt : q < r.lastAckNum) :
    Accepted pkts total w (insert q A) r (sendAckPacket r (pkts q)) := by
  have hsub := Set.subset_insert q A
  refine accepted_ack r.recQueue h hm (hlt.trans hr.last_lt) ⟨hr.last_lt,
    hr.ring.mono hsub (le_refl _) (le_refl _) fun j hj => hj, fun hw => ?_⟩ (pkts q)
  obtain ⟨hbelow, hnot, hup, hocc, hfile⟩ := hr.exact hw
  refine ⟨fun p hp => hsub (hbelow p hp), fun hmem => ?_, fun p hp => ?_, fun p hp hp' => ?_, hfile⟩
  · rcases Set.mem_insert_iff.mp hmem with he | hmem
    · simp only at he
      omega
    · exact hnot hmem
  · rcases Set.mem_insert_iff.mp hp with rfl | hp
    · simp only
      omega
    · exact hup p hp
  · rcases Set.mem_insert_iff.mp hp with rfl | hp
    · simp only at hp'
      omega
    · exact hocc p hp hp'

/-- **A datagram with a packet of the file** that `recvPacket` accepts. -/
theorem receive_accepted (hN : Numbered pkts total) (h : ReceiverOk pkts total w A r)
    (hm : r.mode = .receiving) {d : Datagram} {q : ℕ} (hd : d.packet = pkts q)
    (hacc : (recvPacket d r.siOther).1 = 0) (hq : q < total) (hle : q ≤ r.lastAckNum + w) :
    Accepted pkts total w (insert q A) r (receive d r) := by
  have hr := h.receiving hm
  have hT := hN.total_lt
  obtain ⟨siOther, rq, last, file, acks, mode⟩ := r
  obtain rfl : mode = .receiving := hm
  -- `recvPacket` changes the peer alone
  have hr' : Receiving pkts total w A
      ⟨(recvPacket d siOther).2, rq, last, file, acks, .receiving⟩ :=
    ⟨hr.last_lt, hr.ring, hr.exact⟩
  have h' : ReceiverOk pkts total w A
      ⟨(recvPacket d siOther).2, rq, last, file, acks, .receiving⟩ :=
    ⟨h.accepted, h.reach, h.acks, hr'⟩
  simp only [receive, hacc, hd, hN.seqNum, ne_eq, not_true_eq_false, if_false]
  split
  · rename_i heq
    subst heq
    rw [u32_of_lt (by omega)]
    obtain ⟨h1, h2, h3, h4⟩ := accepted_next hN h' hr' rfl
    exact ⟨h1, h2, h3, h4⟩
  · split
    · rename_i hlt
      obtain ⟨h1, h2, h3, h4⟩ := accepted_beyond hN h' hr' rfl hq hlt hle
      exact ⟨h1, h2, h3, h4⟩
    · obtain ⟨h1, h2, h3, h4⟩ := accepted_before h' hr' rfl (q := q) (by simp only; omega)
      exact ⟨h1, h2, h3, h4⟩

/-- **A datagram that `recvPacket` rejects** is answered with `last_ack_num`, or not at all. -/
theorem receive_rejected (h : ReceiverOk pkts total w A r) (hm : r.mode = .receiving)
    {d : Datagram} (hrej : (recvPacket d r.siOther).1 ≠ 0) :
    ReceiverOk pkts total w A (receive d r) ∧ (receive d r).acked = r.acked := by
  obtain ⟨siOther, rq, last, file, acks, mode⟩ := r
  obtain rfl : mode = .receiving := hm
  have hr : Receiving pkts total w A ⟨siOther, rq, last, file, acks, .receiving⟩ := h.mode
  simp only [receive, if_pos hrej]
  split
  · exact ⟨⟨h.accepted, h.reach, h.acks, hr.last_lt, hr.ring, hr.exact⟩, rfl⟩
  · have hacks' : ∀ a ∈ acks ++ [(buildAckPacket ⟨0, 0, 0⟩ d.packet last).1], a.ackNum ≤ last :=
      acks_append h.acks (le_refl last) fun a ha =>
        congrArg AckPacket.ackNum (List.mem_singleton.mp ha)
    exact ⟨⟨h.accepted, h.reach, hacks', hr.last_lt, hr.ring, hr.exact⟩, rfl⟩

/-- **A datagram keeps the invariant**, whether `recvPacket` accepts it or not. -/
theorem receiverOk_receive (hN : Numbered pkts total) (h : ReceiverOk pkts total w A r)
    (hm : r.mode = .receiving) {d : Datagram} {q : ℕ} (hd : d.packet = pkts q) (hq : q < total)
    (hle : q ≤ r.lastAckNum + w) :
    ∃ A', A' ⊆ insert q A ∧ ReceiverOk pkts total w A' (receive d r) ∧
      r.acked ≤ (receive d r).acked := by
  by_cases hacc : (recvPacket d r.siOther).1 = 0
  · have hacked := Receiver.acked_receiving hm
    have h' := receive_accepted hN h hm hd hacc hq hle
    exact ⟨_, le_refl _, h'.ok, hacked ▸ h'.le_acked⟩
  · obtain ⟨hok, hacked⟩ := receive_rejected h hm hacc
    exact ⟨A, Set.subset_insert q A, hok, hacked.ge⟩

/-! ## One pass of the loop of `reliablyReceive` -/

/-- **The second loop of `check_and_sent_buffer` ends**, with the number acked before it. -/
theorem writeLoop_writing (hN : Numbered pkts total) : ∀ (fuel ret : ℕ) (retval : ℤ)
    (r : Receiver), ReceiverOk pkts total w A r → r.mode = .writing ackNum ret retval →
      ackNum - ret < fuel →
      ∃ r', writeLoop fuel r = some r' ∧ ReceiverOk pkts total w A r' ∧
        r'.lastAckNum = ackNum ∧
        (r'.mode = .finished ∨ r'.mode = .receiving ∧ r'.acks = r.acks) := by
  intro fuel
  induction fuel with
  | zero => exact fun _ _ _ _ _ hlt => absurd hlt (Nat.not_lt_zero _)
  | succ fuel ih =>
    intro ret retval r h hm hlt
    obtain ⟨hok, -⟩ := receiverOk_writeStep hN h
    have hloop : writeLoop (fuel + 1) r = writeLoop fuel (writeStep r) := by
      rw [writeLoop, hm]
    rw [hloop]
    rcases writeStep_spec hN h hm with ⟨hret, rq, file, retval', heq, -⟩ | ⟨-, -, heq, -⟩ |
      ⟨-, heq, -⟩
    · rw [heq] at hok ⊢
      exact ih (ret + 1) retval' _ hok rfl (by omega)
    · rw [heq] at hok ⊢
      exact ⟨_, writeLoop_stop (fun _ _ _ => Mode.noConfusion) fuel, hok, rfl, Or.inl rfl⟩
    · rw [heq] at hok ⊢
      exact ⟨_, writeLoop_stop (fun _ _ _ => Mode.noConfusion) fuel, hok, rfl, Or.inr ⟨rfl, rfl⟩⟩

theorem writeLoop_spec (hN : Numbered pkts total) (h : ReceiverOk pkts total w A r)
    (hs : r.mode ≠ .spinning) :
    ∃ r', writeLoop (window + 1) r = some r' ∧ ReceiverOk pkts total w A r' ∧
      (r'.mode = .finished ∨ r.mode ≠ .finished ∧
        r'.mode = .receiving ∧ r'.acks = r.acks ∧ r'.lastAckNum = r.acked) := by
  cases hm : r.mode with
  | writing ackNum ret retval =>
    have h1 := (h.writing hm).near
    have h2 := (h.writing hm).last_le
    obtain ⟨r', hl, hok, hlast, hend⟩ :=
      writeLoop_writing hN (window + 1) ret retval r h hm (by omega)
    refine ⟨r', hl, hok, hend.imp_right fun ⟨hm', hacks⟩ => ⟨Mode.noConfusion, hm', hacks, ?_⟩⟩
    rw [hlast, Receiver.acked_writing hm]
  | receiving =>
    refine ⟨r, writeLoop_stop (by simp [hm]) _, h, Or.inr ⟨Mode.noConfusion, hm, rfl, ?_⟩⟩
    rw [Receiver.acked_receiving hm]
  | spinning => exact absurd hm hs
  | finished => exact ⟨r, writeLoop_stop (by simp [hm]) _, h, Or.inl hm⟩

end Steps

/-! ## Arrivals below `last_ack_num + WINDOW` -/

/-- The receiver after it has accepted packets of a file, the last one first in the list, each below
`last_ack_num + WINDOW` when it arrived. -/
inductive Arrived (file : List UInt8) : List ℕ → Receiver → Prop
  | start : Arrived file [] Receiver.init
  | next {qs : List ℕ} {r r' : Receiver} {d : Datagram} {q : ℕ} (h : Arrived file qs r)
      (hm : r.mode = .receiving) (hd : d.packet = genuinePacket file q) (hq : q < totalSeq file)
      (hacc : (recvPacket d r.siOther).1 = 0) (hw : q < r.lastAckNum + window)
      (hr : handle d r = some r') : Arrived file (q :: qs) r'

section Arrivals

variable {file : List UInt8} {qs : List ℕ} {r : Receiver} {d : Datagram} {q : ℕ}

/-- One arrival: its pass of the loop ends and keeps the invariant. -/
theorem handle_spec
    (h : ReceiverOk (genuinePacket file) (totalSeq file) (window - 1) {p | p ∈ qs} r)
    (hm : r.mode = .receiving) (hd : d.packet = genuinePacket file q) (hq : q < totalSeq file)
    (hacc : (recvPacket d r.siOther).1 = 0) (hw : q < r.lastAckNum + window) :
    ∃ r', handle d r = some r' ∧
      ReceiverOk (genuinePacket file) (totalSeq file) (window - 1) {p | p ∈ q :: qs} r' ∧
      (r'.mode = .finished ∨ r'.mode = .receiving ∧
        ∃ a, r'.acks = r.acks ++ [a] ∧ a.ackNum = r'.lastAckNum) := by
  have hN := numbered_genuinePacket file
  have hset : insert q {p | p ∈ qs} = {p | p ∈ q :: qs} := by
    ext p
    simp
  have h' := receive_accepted hN h hm hd hacc hq (by omega)
  have hspin := h'.not_spinning (by decide)
  rw [hset] at h'
  obtain ⟨r', hl, hok, hend⟩ := writeLoop_spec hN h'.ok hspin
  refine ⟨r', hl, hok, hend.imp_right fun ⟨hne, hm', hacks, hlast⟩ => ⟨hm', ?_⟩⟩
  obtain ⟨a, ha, hack⟩ := h'.one_ack hspin hne
  exact ⟨a, hacks.trans ha, hack.trans hlast.symm⟩

theorem Arrived.receiverOk (h : Arrived file qs r) (hT : 0 < totalSeq file) :
    ReceiverOk (genuinePacket file) (totalSeq file) (window - 1) {p | p ∈ qs} r := by
  induction h with
  | start =>
    rw [show {p | p ∈ ([] : List ℕ)} = (∅ : Set ℕ) by ext; simp]
    exact receiverOk_init hT
  | next _ hm hd hq hacc hw hr ih =>
    obtain ⟨r'', hr', hok, -⟩ := handle_spec ih hm hd hq hacc hw
    obtain rfl := Option.some.inj (hr.symm.trans hr')
    exact hok

/-- While a packet is missing, the receiver goes on with its peer. -/
theorem Arrived.extend (h : Arrived file qs r) (hm : r.mode = .receiving)
    (hd : d.packet = genuinePacket file q) (hq : q < totalSeq file) {addr : SockAddr}
    (hacc : recvPacket d r.siOther = (0, addr)) (hw : q < r.lastAckNum + window) {p : ℕ}
    (hp : p < totalSeq file) (hmiss : p ∉ q :: qs) :
    ∃ r', Arrived file (q :: qs) r' ∧ r'.mode = .receiving ∧ r'.siOther = addr := by
  have hacc' : (recvPacket d r.siOther).1 = 0 := by rw [hacc]
  obtain ⟨r', hr, hok, hend⟩ :=
    handle_spec (h.receiverOk (Nat.zero_lt_of_lt hq)) hm hd hq hacc' hw
  refine ⟨r', .next h hm hd hq hacc' hw hr, ?_, by rw [handle_siOther hm hr, hacc]⟩
  exact hend.elim (fun hf => absurd (((hok.finished hf).2 (by decide)).2.1 p hp) hmiss) And.left

/-- **Reassembly, in order and exactly once.** While the receiver has not finished, the pass of the
loop for an arrival that `recvPacket` accepts ends; `last_ack_num` is then the least number not
accepted, the bytes written are the payloads below it, the occupied slots are those of the packets
accepted beyond it, each with its packet, and one ack was sent, with the new `last_ack_num`. The
receiver finishes exactly when every packet is accepted. -/
theorem reassembly (h : Arrived file qs r) (hm : r.mode = .receiving)
    (hd : d.packet = genuinePacket file q) (hq : q < totalSeq file)
    (hacc : (recvPacket d r.siOther).1 = 0) (hw : q < r.lastAckNum + window) :
    ∃ r', handle d r = some r' ∧
      (r'.mode = .finished ↔ ∀ p < totalSeq file, p ∈ q :: qs) ∧
      (r'.mode ≠ .finished → r'.mode = .receiving ∧
        ((∀ p < r'.lastAckNum, p ∈ q :: qs) ∧ r'.lastAckNum ∉ q :: qs) ∧
        r'.file = payloads (genuinePacket file) r'.lastAckNum ∧
        (∀ j < window, r'.recQueue.buflen j = 1 ↔
          ∃ p ∈ q :: qs, r'.lastAckNum < p ∧ p % window = j) ∧
        (∀ p ∈ q :: qs, r'.lastAckNum < p →
          r'.recQueue.buffer (p % window) = genuinePacket file p) ∧
        ∃ a, r'.acks = r.acks ++ [a] ∧ a.ackNum = r'.lastAckNum) := by
  have hok := h.receiverOk (Nat.zero_lt_of_lt hq)
  obtain ⟨r', hr, hok', hend⟩ := handle_spec hok hm hd hq hacc hw
  refine ⟨r', hr, ?_⟩
  rcases hend with hf | ⟨hm', hack⟩
  · have hall := ((hok'.finished hf).2 (by decide)).2.1
    exact ⟨⟨fun _ => hall, fun _ => hf⟩, fun hne => absurd hf hne⟩
  · have hmode := hok'.receiving hm'
    obtain ⟨hbelow, hnot, hup, hocc, hfile⟩ := hmode.exact (by decide)
    refine ⟨⟨fun hf => absurd (hm'.symm.trans hf) Mode.noConfusion,
      fun hall => absurd (hall _ hmode.last_lt) hnot⟩, fun _ => ⟨hm', ⟨hbelow, hnot⟩, hfile,
      fun j hj => ⟨fun hs => ?_, ?_⟩, fun p hp hlt => ?_, hack⟩⟩
    · obtain ⟨p, hp, hmod, hle, -⟩ := hmode.ring j hj hs
      exact ⟨p, hp, hle, hmod⟩
    · rintro ⟨p, hp, hlt, rfl⟩
      exact hocc p hp hlt
    · have hle := hup p hp
      obtain ⟨-, -, hb | hb⟩ := hmode.ring.eq (by omega) hlt (by omega) (hocc p hp hlt)
      · exact hb
      · exact hb.1.elim

/-- A file of four full packets. -/
def fourPackets : List UInt8 := List.replicate 5776 0

/-- Packets `0`, `2`, and `2` again, and then the one between them. -/
theorem reassembly_fourPackets : ∃ r r', Arrived fourPackets [2, 2, 0] r ∧ r.lastAckNum = 1 ∧
    handle (datagram ⟨4000, 1⟩ (genuinePacket fourPackets 1)) r = some r' ∧
    r'.mode = .receiving ∧ r'.lastAckNum = 3 ∧
    r'.file = payloads (genuinePacket fourPackets) 3 ∧
    ∃ a, r'.acks = r.acks ++ [a] ∧ a.ackNum = 3 := by
  have hT : totalSeq fourPackets = 4 := by decide +kernel
  have hlt : ∀ {q}, q < 4 → q < totalSeq fourPackets := fun hq => by rwa [hT]
  have hw : ∀ {q l : ℕ}, q < 4 → q < l + window := fun hq => by
    unfold window
    omega
  have hpeer : ∀ {q : ℕ} {r : Receiver}, r.siOther = ⟨4000, 1⟩ →
      recvPacket (datagram ⟨4000, 1⟩ (genuinePacket fourPackets q)) r.siOther =
        (0, ⟨4000, 1⟩) := fun hp => by
    rw [hp]
    exact recvPacket_peer rfl rfl
  -- packet `3` is missing throughout
  obtain ⟨r₁, h₁, hm₁, hp₁⟩ :=
    Arrived.extend (d := datagram ⟨4000, 1⟩ (genuinePacket fourPackets 0)) .start rfl rfl
      (hlt (by decide)) (recvPacket_zero rfl rfl) (hw (by decide)) (p := 3) (hlt (by decide))
      (by decide)
  obtain ⟨r₂, h₂, hm₂, hp₂⟩ :=
    h₁.extend (d := datagram ⟨4000, 1⟩ (genuinePacket fourPackets 2)) hm₁ rfl (hlt (by decide))
      (hpeer hp₁) (hw (by decide)) (p := 3) (hlt (by decide)) (by decide)
  obtain ⟨r₃, h₃, hm₃, hp₃⟩ :=
    h₂.extend (d := datagram ⟨4000, 1⟩ (genuinePacket fourPackets 2)) hm₂ rfl (hlt (by decide))
      (hpeer hp₂) (hw (by decide)) (p := 3) (hlt (by decide)) (by decide)
  obtain ⟨hbelow₃, hnot₃, -⟩ := ((h₃.receiverOk (hlt (by decide))).receiving hm₃).exact (by decide)
  have hlast₃ : r₃.lastAckNum = 1 := by
    have hone : 1 < r₃.lastAckNum → 1 ∈ [2, 2, 0] := hbelow₃ 1
    have hnot : r₃.lastAckNum ∉ [2, 2, 0] := hnot₃
    simp only [List.mem_cons, List.not_mem_nil, or_false] at hone hnot
    omega
  obtain ⟨r₄, hr, hfin, hrest⟩ :=
    reassembly (d := datagram ⟨4000, 1⟩ (genuinePacket fourPackets 1)) h₃ hm₃ rfl
      (hlt (by decide)) (by rw [hpeer hp₃]) (hw (by decide))
  obtain ⟨hm₄, ⟨hbelow₄, hnot₄⟩, hfile, -, -, hack⟩ :=
    hrest fun hf => absurd (hfin.mp hf 3 (hlt (by decide))) (by decide)
  have hlast₄ : r₄.lastAckNum = 3 := by
    have hthree := hbelow₄ 3
    simp only [List.mem_cons, List.not_mem_nil, or_false] at hthree hnot₄
    omega
  rw [hlast₄] at hfile hack
  exact ⟨r₃, r₄, h₃, hlast₃, hr, hm₄, hlast₄, hfile, hack⟩

end Arrivals

end NetworkingLearning.Transfer
