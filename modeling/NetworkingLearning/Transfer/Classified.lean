import NetworkingLearning.Transfer.Completion
import NetworkingLearning.Transfer.Stall

/-!
# Duplicate acks (`adt.c:96-109`, `sender_main.c:114-129`)

`ackCwnd` calls an ack a duplicate if it equals `lastAck`. That is the `sendBase` known so far, but
for the start: `sendBase` is `0` then, and `lastAck` is `2 ^ 32 - 1`, so an ack `0` would pass for
progress, and so would any first ack but `2 ^ 32 - 1`. Neither comes: a receiver that has accepted
nothing is silent (`Quiet`, `receiver_main.c:189-193`), and a sender that knows of no ack has sent
its first window at most (`FirstWindow`), so that `2 ^ 32 - 1` is not among the acks either.

The invariant of the two programs together is `Classifying`. A batch is read one ack at a time:
`known_ackStep` is the step, over the state and the `sendBase` that is pending.

Results:
* `quiet_receive`, `quiet_writeStep`: a receiver acks no `0`.
* `known_ackStep`: `lastAck` follows the `sendBase` known so far.
* `acks_classified`: in every state of the system each ack of a batch runs the handler that is meant
  for it.
-/

namespace NetworkingLearning.Transfer

open NetworkingLearning.Machine

/-! ## The receiver -/

/-- A receiver that has accepted nothing has no peer and sends nothing; its acks begin with `1`. -/
structure Quiet (r : Receiver) : Prop where
  fresh : r.lastAckNum = 0 →
    r.mode = .receiving ∧ r.siOther = Receiver.init.siOther ∧ r.acks = []
  pos : ∀ a ∈ r.acks, 1 ≤ a.ackNum

section Quiet

variable {pkts : ℕ → RdtPacket} {total w q : ℕ} {A : Set ℕ} {r : Receiver} {addr : SockAddr}

theorem quiet_init : Quiet Receiver.init :=
  ⟨fun _ => ⟨rfl, rfl, rfl⟩, fun _ ha => absurd ha List.not_mem_nil⟩

/-- New acks of a positive number. -/
theorem Quiet.append (h : Quiet r) {new : List AckPacket} (hnew : ∀ a ∈ new, 1 ≤ a.ackNum) :
    ∀ a ∈ r.acks ++ new, 1 ≤ a.ackNum := fun a ha =>
  (List.mem_append.mp ha).elim (h.pos a) (hnew a)

/-- A state with the number acked last above `0`, after more acks. -/
theorem Quiet.of_pos (h : Quiet r) {r' : Receiver} (hlast : 1 ≤ r'.lastAckNum)
    (new : List AckPacket) (hacks : r'.acks = r.acks ++ new)
    (hnew : ∀ a ∈ new, 1 ≤ a.ackNum) : Quiet r' :=
  ⟨fun h0 => absurd h0 (by omega), hacks ▸ h.append hnew⟩

theorem quiet_waitForBreak (h : Quiet r) {r' : Receiver} (hl : 1 ≤ r'.lastAckNum)
    (hacks : r'.acks = r.acks) : Quiet (waitForBreak r') :=
  h.of_pos hl (List.replicate 45 ⟨0, r'.lastAckNum, 1⟩) (by rw [← hacks]; rfl) fun a ha => by
    rw [List.eq_of_mem_replicate ha]
    exact hl

/-- No new acks. -/
theorem Quiet.of_acks (h : Quiet r) {r' : Receiver} (hlast : 1 ≤ r'.lastAckNum)
    (hacks : r'.acks = r.acks) : Quiet r' :=
  h.of_pos hlast [] (hacks.trans (List.append_nil _).symm) fun _ ha => absurd ha List.not_mem_nil

/-- **A pass of the second loop**, or its end. -/
theorem quiet_writeStep (hN : Numbered pkts total) (hok : ReceiverOk pkts total w A r)
    (h : Quiet r) : Quiet (writeStep r) := by
  cases hm : r.mode with
  | writing ackNum ret retval =>
    have hmode := hok.writing hm
    have hpos : 1 ≤ r.lastAckNum := by
      by_contra h0
      exact absurd (hm.symm.trans (h.fresh (by omega)).1) Mode.noConfusion
    have hack : 1 ≤ ackNum := hpos.trans (hmode.last_le.trans hmode.ret_le)
    rcases writeStep_spec hN hok hm with ⟨-, rq, file, retval', heq, -⟩ | ⟨-, -, heq, -⟩ |
      ⟨-, heq, -⟩
    · rw [heq]
      exact h.of_acks hpos rfl
    · rw [heq]
      exact quiet_waitForBreak h hack rfl
    · rw [heq]
      exact h.of_acks hack rfl
  | receiving =>
    rw [writeStep, hm]
    exact h
  | spinning =>
    rw [writeStep, hm]
    exact h
  | finished =>
    rw [writeStep, hm]
    exact h

/-- A packet from an address other than `0` is not beyond `last_ack_num` when nothing was
accepted. -/
theorem Quiet.accepted (h : Quiet r) (haddr : addr ≠ Receiver.init.siOther) {packet : RdtPacket}
    (hacc : (recvPacket (datagram addr packet) r.siOther).1 = 0) (h0 : packet.seqNum ≠ 0) :
    1 ≤ r.lastAckNum := by
  by_contra hlast
  obtain ⟨-, hpeer, -⟩ := h.fresh (by omega)
  rw [recvPacket_ne_zero rfl h0, hpeer,
    if_neg (show (datagram addr packet).addr ≠ Receiver.init.siOther from haddr)] at hacc
  exact absurd hacc (show (-1 : ℤ) ≠ 0 by decide)

/-- **A datagram** from an address other than `0`. -/
theorem quiet_receive (hN : Numbered pkts total) (hok : ReceiverOk pkts total w A r)
    (hm : r.mode = .receiving) (h : Quiet r) (haddr : addr ≠ Receiver.init.siOther)
    {packet : RdtPacket} {A' : Set ℕ}
    (hok' : ReceiverOk pkts total w A' (receive (datagram addr packet) r)) :
    Quiet (receive (datagram addr packet) r) := by
  have hlast := (hok.receiving hm).last_lt
  have hT := hN.total_lt
  have hpeer : (recvPacket (datagram addr packet) r.siOther).1 ≠ 0 →
      (recvPacket (datagram addr packet) r.siOther).2 = r.siOther := by
    intro hrej
    by_cases h0 : packet.seqNum = 0
    · rw [recvPacket_zero rfl h0] at hrej
      exact absurd rfl hrej
    · rw [recvPacket_ne_zero rfl h0]
  have hack : ∀ l, 1 ≤ l → ∀ a ∈ [(buildAckPacket ⟨0, 0, 0⟩ packet l).1], 1 ≤ a.ackNum := by
    intro l hl a ha
    obtain rfl := List.mem_singleton.mp ha
    exact hl
  unfold receive at hok' ⊢
  simp only [hm] at hok' ⊢
  split_ifs at hok' ⊢ with hrej h0 heq hfin hlt
  · rw [hpeer hrej]
    exact ⟨fun hz => ⟨rfl, (h.fresh hz).2⟩, h.pos⟩
  · exact h.of_pos (Nat.one_le_iff_ne_zero.mpr h0) _ rfl (hack _ (Nat.one_le_iff_ne_zero.mpr h0))
  · have hpos : 1 ≤ u32 ((datagram addr packet).packet.seqNum + 1) := by
      rw [heq, u32_of_lt (by omega)]
      omega
    exact quiet_waitForBreak h hpos rfl
  · have hpos : 1 ≤ u32 ((datagram addr packet).packet.seqNum + 1) := by
      rw [heq, u32_of_lt (by omega)]
      omega
    rcases checkAndSentBuffer_cases _ _ with hcs | ⟨rq, a, hcs⟩
    · rw [hcs]
      exact h.of_acks hpos rfl
    · rw [hcs] at hok' ⊢
      have hwr : Writing pkts total w A' a.ackNum _ 0 _ := hok'.mode
      exact h.of_pos hpos _ rfl fun b hb => by
        obtain rfl := List.mem_singleton.mp hb
        exact hpos.trans hwr.ret_le
  · have hpos := h.accepted haddr (not_not.mp hrej) (Nat.ne_zero_of_lt hlt)
    exact h.of_pos hpos _ rfl (hack _ hpos)
  · have hpos : 1 ≤ r.lastAckNum := by omega
    exact h.of_pos hpos _ rfl (hack _ hpos)

end Quiet

/-! ## The sender -/

/-- `cwnd` where `base` is the `sendBase` known so far. `first` says that nothing was acked yet. -/
structure Known (cwnd : Cwnd) (base : ℕ) : Prop where
  first : base = 0 → cwnd.lastAck = 2 ^ 32 - 1 ∧ cwnd.window ≤ 4 ∧
    cwnd.state = ⟨.slowStart, .ackSlowStart, .dupAck⟩
  last : base ≠ 0 → cwnd.lastAck = base
  congest : cwnd.state.state = .congestAvoid → cwnd.state.ack = .ackCongAvoid

section Known

variable {cwnd : Cwnd} {base ackNum m : ℕ} {stat : SenderStat} {acks : List AckPacket}
  {ev : Events}

theorem known_initCwnd : Known initCwnd 0 :=
  ⟨fun _ => ⟨rfl, le_refl 4, rfl⟩, fun h => absurd rfl h, fun h => Label.noConfusion h⟩

theorem congest_callDupAck (h : cwnd.state.state = .congestAvoid → cwnd.state.ack = .ackCongAvoid) :
    (callDupAck cwnd).state.state = .congestAvoid →
      (callDupAck cwnd).state.ack = .ackCongAvoid := by
  unfold callDupAck
  cases cwnd.state.dupAck with
  | dupAck =>
    simp only [dupAck]
    split
    · exact fun hs => Label.noConfusion hs
    · exact h
  | dupAckFastRecov => exact h

theorem congest_callAck (h : cwnd.state.state = .congestAvoid → cwnd.state.ack = .ackCongAvoid)
    (ackNum : ℕ) : (callAck cwnd ackNum).state.state = .congestAvoid →
      (callAck cwnd ackNum).state.ack = .ackCongAvoid := by
  unfold callAck
  cases cwnd.state.ack with
  | ackSlowStart =>
    simp only [ackSlowStart]
    split
    · exact fun _ => rfl
    · exact h
  | ackCongAvoid =>
    simp only [ackCongAvoid]
    split <;> exact h
  | ackFastRecov => exact fun _ => rfl

/-- **An ack above `0`**: `lastAck` follows it. -/
theorem known_ackCwnd (h : Known cwnd base) (hpos : 1 ≤ ackNum) :
    Known (ackCwnd cwnd ackNum) ackNum := by
  refine ⟨fun h0 => absurd h0 (by omega), fun _ => ackCwnd_lastAck cwnd ackNum, ?_⟩
  unfold ackCwnd
  split
  · exact congest_callDupAck h.congest
  · exact congest_callAck h.congest ackNum

theorem known_confirmThreeDups (h : Known cwnd base) : Known (confirmThreeDups cwnd).1 base := by
  unfold confirmThreeDups
  split
  · rename_i hs
    refine ⟨fun h0 => ?_, h.last, fun hs => Label.noConfusion hs⟩
    rw [(h.first h0).2.2] at hs
    exact Label.noConfusion hs
  · exact h

theorem timeoutCwnd_frame (cwnd : Cwnd) (ack : ℕ) :
    (timeoutCwnd cwnd ack).lastAck = cwnd.lastAck ∧ (timeoutCwnd cwnd ack).window = 1 ∧
      (timeoutCwnd cwnd ack).state = ⟨.slowStart, .ackSlowStart, .dupAck⟩ := by
  unfold timeoutCwnd
  split <;> exact ⟨rfl, rfl, rfl⟩

theorem known_timeoutCwnd (h : Known cwnd base) (ack : ℕ) : Known (timeoutCwnd cwnd ack) base := by
  obtain ⟨hl, hw, hs⟩ := timeoutCwnd_frame cwnd ack
  refine ⟨fun h0 => ⟨hl.trans (h.first h0).1, by omega, hs⟩, fun h0 => hl.trans (h.last h0),
    fun hc => ?_⟩
  rw [hs] at hc
  exact Label.noConfusion hc

/-- **One ack of a batch** in the loop of `ackAll`. -/
theorem known_ackStep {st : SenderStat × ℕ} (h : Known st.1.cwnd st.2) {a : AckPacket}
    (ha : 1 ≤ a.ackNum) : Known (ackStep st a).1.cwnd (ackStep st a).2 := by
  unfold ackStep
  split
  · exact known_ackCwnd h ha
  · exact h

/-- The acks of a batch. -/
theorem known_foldl (acks : List AckPacket) (hacks : ∀ a ∈ acks, 1 ≤ a.ackNum) :
    ∀ st : SenderStat × ℕ, Known st.1.cwnd st.2 →
      Known (acks.foldl ackStep st).1.cwnd (acks.foldl ackStep st).2 := by
  induction acks with
  | nil => exact fun _ h => h
  | cons a acks ih =>
    intro st h
    rw [List.foldl_cons]
    exact ih (fun x hx => hacks x (List.mem_cons_of_mem a hx)) _
      (known_ackStep h (hacks a List.mem_cons_self))

/-- **An iteration up to `sendpkts`.** -/
theorem known_process (h : Known stat.cwnd stat.sendBase) (hacks : ∀ a ∈ ev.acks, 1 ≤ a.ackNum) :
    Known (process ev stat).cwnd (process ev stat).sendBase := by
  obtain ⟨timer, hread⟩ := readEvents_eq ev stat
  simp only [process, hread]
  split
  · have hfold := known_foldl ev.acks hacks ({ stat with timer := timer }, stat.sendBase) h
    obtain ⟨recvFin, hack⟩ := ackAll_eq ev.acks { stat with timer := timer }
    obtain ⟨recvFin', heq⟩ := foldl_ackStep ev.acks { stat with timer := timer } stat.sendBase
    rw [heq] at hfold
    have hc := known_confirmThreeDups hfold
    rw [hack]
    simp only at hc ⊢
    generalize confirmThreeDups (batchCwnd ev.acks stat.cwnd stat.sendBase) = conf at hc ⊢
    obtain ⟨cwnd, threeDups⟩ := conf
    have hle := le_maxAck ev.acks stat.sendBase
    cases threeDups with
    | true =>
      rw [merge_threeDups rfl]
      simp only
      split
      · exact hc
      · rwa [show stat.sendBase = maxAck ev.acks stat.sendBase by omega]
    | false =>
      by_cases hlt : stat.sendBase < maxAck ev.acks stat.sendBase
      · rw [merge_advanced rfl hlt]
        exact hc
      · have heq : maxAck ev.acks stat.sendBase = stat.sendBase := by omega
        rw [heq] at hc
        cases ht : ev.hasTimeout with
        | true =>
          rw [merge_timeout rfl hlt rfl]
          exact known_timeoutCwnd hc _
        | false =>
          rw [merge_idle rfl hlt rfl]
          exact hc
  · exact h

end Known

/-! ## The system -/

/-- While no ack is known, every packet sent was in the first window. -/
def FirstWindow (s : Sender) : Prop :=
  s.stat.sendBase = 0 → ∀ e ∈ s.wire, e.1.sendBase = 0 ∧ e.1.cwnd.window ≤ 4

/-- The two programs, as far as the classification of acks needs them. -/
structure Classifying (s : Session) : Prop where
  known : Known s.sender.stat.cwnd s.sender.stat.sendBase
  first : FirstWindow s.sender
  quiet : Quiet s.receiver

section System

variable {file : List UInt8} {res : ℕ → SendtoResult} {snd snd' : Sender} {r : ℤ} {m : ℕ}
  {addr : SockAddr} {A : Set ℕ} {s s' : Session} {arrives : Receiver → RdtPacket → Prop}

/-- What `sendpkts` sends, it sends with the `cwnd` and `sendBase` it was called with. -/
theorem sendpkts_wire (h : sendpkts file res snd = some (snd', r)) :
    ∀ e ∈ snd'.wire, e ∈ snd.wire ∨
      e.1.cwnd = snd.stat.cwnd ∧ e.1.sendBase = snd.stat.sendBase := by
  refine (sendpkts_invariant (P := fun x => x.stat.cwnd = snd.stat.cwnd ∧
    x.stat.sendBase = snd.stat.sendBase ∧ ∀ e ∈ x.wire, e ∈ snd.wire ∨
      e.1.cwnd = snd.stat.cwnd ∧ e.1.sendBase = snd.stat.sendBase)
    (fun _ hx => hx) (fun x hx _ => ?_) ⟨rfl, rfl, fun _ he => Or.inl he⟩ h).2.2
  obtain ⟨hc, hb, hw⟩ := hx
  obtain ⟨hc', hb', -⟩ := updateNextSeq_frame
    { x.stat with timer := startTimerIfNotRunning x.stat.timer } (getNextSeq x.stat)
  refine ⟨hc'.trans hc, hb'.trans hb, fun e he => ?_⟩
  rcases List.mem_append.mp he with he | he
  · exact hw e he
  · obtain rfl := List.mem_singleton.mp he
    exact Or.inr ⟨hc, hb⟩

/-- `sendpkts` after the acks known so far. -/
theorem firstWindow_sendpkts (h : sendpkts file res snd = some (snd', r))
    (hsends : SendsFile file snd) (hk : Known snd.stat.cwnd snd.stat.sendBase)
    (hf : snd.stat.sendBase = 0 → ∀ e ∈ snd.wire, e.1.sendBase = 0 ∧ e.1.cwnd.window ≤ 4) :
    Known snd'.stat.cwnd snd'.stat.sendBase ∧ FirstWindow snd' := by
  obtain ⟨-, hc, hb⟩ := sendsFile_sendpkts hsends h
  rw [FirstWindow, hc, hb]
  refine ⟨hk, fun h0 e he => ?_⟩
  rcases sendpkts_wire h e he with he | ⟨hec, heb⟩
  · exact hf h0 e he
  · rw [hec, heb]
    exact ⟨h0, (hk.first h0).2.1⟩

/-- A sender that knows of no ack has sent four packets at most. -/
theorem FirstWindow.sent_le (h : FirstWindow snd) (hok : SenderOk m snd)
    (h0 : snd.stat.sendBase = 0) : m ≤ 4 := by
  by_contra hlt
  obtain ⟨p, hp, hq⟩ := (hok.sent 4).mpr (by omega)
  obtain ⟨e, he, rfl⟩ := List.mem_map.mp hp
  obtain ⟨-, -, hwin⟩ := hok.wire e he
  obtain ⟨hb, hw⟩ := h h0 e he
  rw [hb, hq] at hwin
  omega

theorem classifying_init (file : List UInt8) : Classifying (Session.init file) :=
  ⟨known_initCwnd, fun _ _ he => absurd he List.not_mem_nil, quiet_init⟩

/-- **A step of the system.** -/
theorem classifying_step (haddr : addr ≠ Receiver.init.siOther)
    (hok : SessionOk file (totalSeq file) m A s) (h : Classifying s)
    (hs : Session.Step file addr (fun _ _ => True) s s') : Classifying s' := by
  have hN := numbered_genuinePacket file
  obtain ⟨m', A', hok'⟩ := sessionOk_step (fun r p _ hp => by omega) hok hs
  cases hs with
  | start res hp hs =>
    obtain ⟨hk, hf⟩ := firstWindow_sendpkts hs hok.sends h.known h.first
    exact ⟨hk, hf, h.quiet⟩
  | iterate ev res hp hb hlen hacks hs =>
    have hpos : ∀ a ∈ ev.acks, 1 ≤ a.ackNum := fun a ha => h.quiet.pos a (hacks a ha)
    obtain ⟨hbase, hT, hl, -⟩ := process_frame ev s.sender.stat
    have hsends : SendsFile file { s.sender with
        stat := process ev s.sender.stat
        sockWritable := s.sender.sockWritable || ev.writable } :=
      ⟨hT.trans hok.sends.totalSeq, hl.trans hok.sends.lastChunk, hok.sends.packets⟩
    obtain ⟨hk, hf⟩ := firstWindow_sendpkts hs hsends (known_process h.known hpos) fun h0 => by
      have hle := le_maxAck ev.acks s.sender.stat.sendBase
      simp only [hbase] at h0
      exact h.first (by omega)
    exact ⟨hk, hf, h.quiet⟩
  | exit hp hb => exact ⟨h.known, h.first, h.quiet⟩
  | recv packet hm hp ha =>
    exact ⟨h.known, h.first,
      quiet_receive hN hok.receiver hm h.quiet haddr hok'.receiver⟩
  | write hm => exact ⟨h.known, h.first, quiet_writeStep hN hok.receiver h.quiet⟩

/-- The number of packets is that of the file throughout. -/
theorem sendsFile_runs (h : Session.Reachable file addr arrives s) : SendsFile file s.sender := by
  refine Runs.invariant (I := fun s => SendsFile file s.sender) ?_ ?_ h
  · rintro s rfl
    exact sendsFile_init file
  · intro s s' hi hs
    cases hs with
    | start res hp hs => exact (sendsFile_sendpkts hi hs).1
    | iterate ev res hp hb hlen hacks hs => exact (sendsFile_iterate hi hs).1
    | exit hp hb => exact hi
    | recv packet hm hp ha => exact hi
    | write hm => exact hi

theorem classifying_runs (haddr : addr ≠ Receiver.init.siOther) (hT : 0 < totalSeq file)
    (h : Session.Reachable file addr (fun _ _ => True) s) :
    (∃ m A, SessionOk file (totalSeq file) m A s) ∧ Classifying s := by
  refine Runs.invariant
    (I := fun s => (∃ m A, SessionOk file (totalSeq file) m A s) ∧ Classifying s) ?_ ?_ h
  · rintro s rfl
    exact ⟨⟨0, ∅, sessionOk_init hT⟩, classifying_init file⟩
  · rintro s s' ⟨⟨m, A, hok⟩, hc⟩ hs
    exact ⟨sessionOk_step (fun r p _ hp => by omega) hok hs, classifying_step haddr hok hc hs⟩

end System

/-! ## The classification -/

/-- **An ack is classified correctly** where `base` is the `sendBase` known so far: it is taken for
a duplicate if it brings no progress, and for an ack if it does; and in `CONGEST_AVOID` the packets
it acks are counted. -/
structure ClassifiedAck (cwnd : Cwnd) (base ackNum : ℕ) : Prop where
  duplicate : ackNum = cwnd.lastAck ↔ ackNum = base
  progress : ackNum ≠ cwnd.lastAck ↔ base < ackNum
  runs_dupAck : ackNum = base → ackCwnd cwnd ackNum = callDupAck cwnd
  runs_ack : base < ackNum →
    ackCwnd cwnd ackNum = { callAck cwnd ackNum with lastAck := ackNum }
  counts : cwnd.state.state = .congestAvoid →
    callAck cwnd ackNum = ackCongAvoid cwnd ackNum ∧ sub32 ackNum cwnd.lastAck = ackNum - base

theorem Known.classified {cwnd : Cwnd} {base ackNum : ℕ} (h : Known cwnd base)
    (hle : base ≤ ackNum) (hpos : 1 ≤ ackNum) (hlt : ackNum < 2 ^ 32)
    (hfirst : base = 0 → ackNum < 2 ^ 32 - 1) : ClassifiedAck cwnd base ackNum := by
  have hdup : ackNum = cwnd.lastAck ↔ ackNum = base := by
    by_cases h0 : base = 0
    · have h1 := (h.first h0).1
      have h2 := hfirst h0
      omega
    · rw [h.last h0]
  refine ⟨hdup, ?_, fun heq => ?_, fun hgt => ?_, fun hs => ⟨?_, ?_⟩⟩
  · rw [Ne, hdup]
    omega
  · rw [ackCwnd, if_pos (hdup.mpr heq)]
  · rw [ackCwnd, if_neg fun heq => absurd (hdup.mp heq) hgt.ne']
  · rw [callAck, h.congest hs]
  · by_cases h0 : base = 0
    · rw [(h.first h0).2.2] at hs
      exact Label.noConfusion hs
    · rw [h.last h0]
      exact sub32_of_le hle hlt

/-- **Duplicate acks are told from progress** in every state of the system: whenever `ackAll` passes
an ack of a batch to `ackCwnd`. -/
theorem acks_classified (file : List UInt8) (addr : SockAddr)
    (haddr : addr ≠ Receiver.init.siOther) (s : Session)
    (h : Session.Reachable file addr (fun _ _ => True) s)
    (hb : s.sender.stat.sendBase < s.sender.stat.totalSeq) (ev : Events)
    (hacks : ∀ a ∈ ev.acks, a ∈ s.receiver.acks) (pre post : List AckPacket) (a : AckPacket)
    (hev : ev.acks = pre ++ a :: post)
    (ha : a.ackNum ≥
      (pre.foldl ackStep (readEvents ev s.sender.stat, s.sender.stat.sendBase)).2) :
    ClassifiedAck
      (pre.foldl ackStep (readEvents ev s.sender.stat, s.sender.stat.sendBase)).1.cwnd
      (pre.foldl ackStep (readEvents ev s.sender.stat, s.sender.stat.sendBase)).2 a.ackNum := by
  have hT : 0 < totalSeq file := (sendsFile_runs h).totalSeq ▸ Nat.zero_lt_of_lt hb
  obtain ⟨⟨m, A, hok⟩, hc⟩ := classifying_runs haddr hT h
  have hpos : ∀ x ∈ ev.acks, 1 ≤ x.ackNum := fun x hx => hc.quiet.pos x (hacks x hx)
  have hmem : a ∈ ev.acks := by simp [hev]
  have hlt : a.ackNum ≤ m := (hok.receiver.acks a (hacks a hmem)).trans hok.acked_le
  have hm := hok.sender.stat.sent_le
  have htotal := hok.sender.stat.total
  obtain ⟨timer, hread⟩ := readEvents_eq ev s.sender.stat
  rw [hread] at ha ⊢
  have hknown := known_foldl pre (fun x hx => hpos x (by simp [hev, hx]))
    ({ s.sender.stat with timer := timer }, s.sender.stat.sendBase) hc.known
  refine hknown.classified ha (hpos a hmem) (by omega) fun h0 => ?_
  -- nothing was acked before the batch either
  obtain ⟨recvFin, heq⟩ := foldl_ackStep pre { s.sender.stat with timer := timer }
    s.sender.stat.sendBase
  rw [heq] at h0
  have hle := le_maxAck pre s.sender.stat.sendBase
  have h4 := hc.first.sent_le hok.sender (Nat.le_zero.mp (h0 ▸ hle))
  omega

theorem acks_classified_twoPackets :
    ∃ s, Session.Reachable twoPackets ⟨4000, 1⟩ (fun _ _ => True) s ∧
      ClassifiedAck s.sender.stat.cwnd s.sender.stat.sendBase 1 := by
  obtain ⟨d, hp⟩ : ∃ d, genuinePacket twoPackets 0 = ⟨0, 0, maxPayloadLen, 0, d⟩ :=
    genuinePacket_inner (by decide +kernel)
  obtain ⟨snd, m, h, -, hf, -, -, hb, -⟩ := first_arrived (fun _ _ => True)
    (by decide +kernel) hp trivial
  have hT : snd.stat.totalSeq = 2 := hf.totalSeq.trans (by decide +kernel)
  exact ⟨_, h, acks_classified twoPackets ⟨4000, 1⟩ (by decide) _ h
    (show snd.stat.sendBase < snd.stat.totalSeq by omega) ⟨[⟨0, 1, 0⟩], false, none⟩
    (fun a ha => ha) [] [] ⟨0, 1, 0⟩ rfl (show 1 ≥ snd.stat.sendBase by omega)⟩

end NetworkingLearning.Transfer
