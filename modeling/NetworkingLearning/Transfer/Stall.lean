import Mathlib.Logic.Function.Iterate
import NetworkingLearning.Transfer.SenderRuns

/-!
# When the sender stalls (`sender_main.c:131-198`, `sender_main.c:233-278`)

The event loop waits in `epoll_wait` without a timeout of its own, so with data unacknowledged it
relies on a running timer or on an `EPOLLOUT` that is still owed (the socket is watched with
`EPOLLET`, so that there is one only after a `sendto` has failed with `EAGAIN`).

`merge` begins with `stat->retrans = pending->threeDups` (`sender_main.c:134`), which drops a
retransmission that `sendto` has put off with `EAGAIN`: the timer was stopped for it
(`sender_main.c:153-156`), and if nothing else may be sent, the loop then waits for an event that
does not come.

`RetransKept` says, of the state before a batch and of the batch, that this does not happen. The
invariant is `TimerOk`: with the timer off and data unacknowledged, a packet may be sent. A batch
makes no difference to it but through `merge`, whose four outcomes are those of `SenderRuns`.

Results:
* `stalls`: two packets, and a run that ends in the stall.
* `not_stalled`: in every run whose batches keep a pending retransmission and do not wrap the
  window, the loop never waits with the timer off, data unacknowledged and the socket writable.
-/

namespace NetworkingLearning.Transfer

open NetworkingLearning.Machine

/-! ## Batches without an advance -/

/-- The duplicate acks of a batch. -/
def dupCount (acks : List AckPacket) (base : ℕ) : ℕ := acks.countP fun a => a.ackNum = base

section Duplicates

variable {cwnd : Cwnd} {acks : List AckPacket} {base : ℕ}

@[simp] theorem callDupAck_lastAck (cwnd : Cwnd) : (callDupAck cwnd).lastAck = cwnd.lastAck := by
  unfold callDupAck
  split
  · simp only [dupAck]
    split <;> rfl
  · rfl

@[simp] theorem ackCwnd_lastAck (cwnd : Cwnd) (ackNum : ℕ) :
    (ackCwnd cwnd ackNum).lastAck = ackNum := by
  unfold ackCwnd
  split
  · rename_i h
    rw [callDupAck_lastAck, h]
  · rfl

/-- Without an ack above the base a batch is its duplicates. -/
theorem batchCwnd_of_le (hle : ∀ a ∈ acks, a.ackNum ≤ base) (hl : cwnd.lastAck = base) :
    batchCwnd acks cwnd base = callDupAck^[dupCount acks base] cwnd := by
  induction acks generalizing cwnd with
  | nil => rfl
  | cons a acks ih =>
    have ha := hle a List.mem_cons_self
    have hrest : ∀ x ∈ acks, x.ackNum ≤ base := fun x hx => hle x (List.mem_cons_of_mem a hx)
    rw [batchCwnd, List.foldl_cons, dupCount, List.countP_cons]
    by_cases heq : a.ackNum = base
    · have hstep : ackCwndStep (cwnd, base) a = (callDupAck cwnd, base) := by
        simp [ackCwndStep, ackCwnd, heq, hl]
      have := ih hrest ((callDupAck_lastAck cwnd).trans hl)
      rw [hstep, if_pos (by simpa using heq), Function.iterate_succ_apply]
      exact this
    · have hstep : ackCwndStep (cwnd, base) a = (cwnd, base) := by
        simp only [ackCwndStep, ge_iff_le, ite_eq_right_iff]
        omega
      rw [hstep, if_neg (by simpa using heq)]
      exact ih hrest hl

/-- Duplicates in fast recovery open the window. -/
theorem iterate_dupAckFastRecov (hd : cwnd.state.dupAck = .dupAckFastRecov) (c : ℕ)
    (hw : cwnd.window + c < 2 ^ 64) :
    callDupAck^[c] cwnd = { cwnd with window := cwnd.window + c } := by
  induction c with
  | zero => rfl
  | succ c ih =>
    rw [Function.iterate_succ_apply', ih (by omega)]
    simp only [callDupAck, hd, dupAckFastRecov]
    rw [u64_of_lt (by omega), Nat.add_assoc]

/-- Duplicates elsewhere are counted; the third asks for a retransmission. -/
theorem iterate_dupAck (hd : cwnd.state.dupAck = .dupAck) (c : ℕ) :
    ((callDupAck^[c] cwnd).state.state = .fastRecovRetrans ∧
        (callDupAck^[c] cwnd).state.dupAck = .dupAckFastRecov) ∨
      (callDupAck^[c] cwnd = { cwnd with dupAck := cwnd.dupAck + c } ∧
        (c = 0 ∨ cwnd.dupAck + c < 3)) := by
  induction c with
  | zero => exact Or.inr ⟨by simp, Or.inl rfl⟩
  | succ c ih =>
    rw [Function.iterate_succ_apply']
    rcases ih with ⟨hs, hf⟩ | ⟨hc, -⟩
    · refine Or.inl ?_
      rw [callDupAck, hf]
      exact ⟨hs, hf⟩
    · rw [hc]
      simp only [callDupAck, hd, dupAck]
      split
      · exact Or.inl ⟨rfl, rfl⟩
      · rename_i hlt
        refine Or.inr ⟨by simp [add_assoc], Or.inr ?_⟩
        push_cast
        omega

/-- The window after a batch without an advance and without a third duplicate. -/
theorem window_of_le (hle : ∀ a ∈ acks, a.ackNum ≤ base) (hl : cwnd.lastAck = base)
    (hs : cwnd.state.state ≠ .fastRecovRetrans) (hw : cwnd.window + acks.length < 2 ^ 64)
    (hno : (confirmThreeDups (batchCwnd acks cwnd base)).2 = false) :
    (confirmThreeDups (batchCwnd acks cwnd base)).1.window =
        cwnd.window + (if cwnd.state.dupAck = .dupAckFastRecov then dupCount acks base else 0) ∧
      ¬ (cwnd.state.dupAck = .dupAck ∧ 0 < dupCount acks base ∧
        3 ≤ cwnd.dupAck + dupCount acks base) := by
  have hc : dupCount acks base ≤ acks.length := List.countP_le_length
  rw [batchCwnd_of_le hle hl] at hno ⊢
  cases hd : cwnd.state.dupAck with
  | dupAckFastRecov =>
    rw [iterate_dupAckFastRecov hd _ (by omega), if_pos rfl, confirmThreeDups, if_neg hs]
    exact ⟨rfl, fun h => absurd h.1 (by decide)⟩
  | dupAck =>
    rcases iterate_dupAck hd (dupCount acks base) with ⟨hr, -⟩ | ⟨heq, hlt⟩
    · rw [confirmThreeDups, if_pos hr] at hno
      exact absurd hno (by simp)
    · rw [heq, if_neg (by decide), confirmThreeDups, if_neg hs]
      exact ⟨rfl, by omega⟩

end Duplicates

/-! ## The window stays open -/

/-- The window is not empty, and `k` more acks do not wrap it. -/
def Opened (k : ℕ) (cwnd : Cwnd) : Prop := 1 ≤ cwnd.window ∧ cwnd.window + k < 2 ^ 64

section Open

variable {cwnd : Cwnd} {j k : ℕ}

theorem opened_callDupAck (hc : CwndOk j cwnd) (h : Opened (k + 1) cwnd) (hk : k < window) :
    Opened k (callDupAck cwnd) := by
  obtain ⟨h1, h2⟩ := h
  unfold window at hk
  unfold callDupAck
  split
  · simp only [dupAck]
    split
    · obtain ⟨-, hle⟩ := halveWindow_ssthresh { cwnd with dupAck := cwnd.dupAck + 1 } hc.wide
      simp only [Opened, toFastRecovRetrans]
      rw [u64_of_lt (by omega)]
      omega
    · exact ⟨h1, by simp only; omega⟩
  · simp only [Opened, dupAckFastRecov]
    rw [u64_of_lt (by omega)]
    omega

theorem opened_callAck (hc : CwndOk j cwnd) (h : Opened (k + 1) cwnd) (hk : k < window)
    (ackNum : ℕ) : Opened k (callAck cwnd ackNum) := by
  obtain ⟨h1, h2⟩ := h
  have h3 := hc.thresh_pos
  have h4 := hc.thresh_le
  have hu : u64 (cwnd.window + 1) = cwnd.window + 1 := u64_of_lt (by omega)
  unfold window at hk
  unfold callAck
  split
  · simp only [ackSlowStart, clearDup, hu]
    split <;> simp only [Opened, toCongAvoid] <;> omega
  · simp only [ackCongAvoid, clearDup, hu]
    split <;> simp only [Opened] <;> omega
  · simp only [Opened, ackFastRecov, clearDup, toCongAvoid]
    omega

theorem opened_ackCwnd (hc : CwndOk j cwnd) (h : Opened (k + 1) cwnd) (hk : k < window)
    (ackNum : ℕ) : Opened k (ackCwnd cwnd ackNum) := by
  unfold ackCwnd
  split
  · exact opened_callDupAck hc h hk
  · exact opened_callAck hc h hk ackNum

/-- A batch leaves the window open, and `lastAck` follows the greatest ack. -/
theorem opened_batchCwnd {acks : List AckPacket} {base : ℕ} (hc : CwndOk 0 cwnd)
    (hlen : acks.length ≤ window) (h : Opened acks.length cwnd)
    (hl : cwnd.lastAck = base ∨ base = 0) :
    1 ≤ (batchCwnd acks cwnd base).window ∧
      ((batchCwnd acks cwnd base).lastAck = maxAck acks base ∨ maxAck acks base = 0) := by
  have := batchCwnd_invariant
    (fun i c b => CwndOk i c ∧ Opened (acks.length - i) c ∧ (c.lastAck = b ∨ b = 0))
    acks cwnd base 0
    (fun i c b a hi _ hP => by
      obtain ⟨hc, ho, -⟩ := hP
      rw [Nat.zero_add] at hi
      exact ⟨cwndOk_ackCwnd hc (by omega) a,
        opened_ackCwnd hc (by rwa [show acks.length - (i + 1) + 1 = acks.length - i by omega])
          (by omega) a, Or.inl (ackCwnd_lastAck c a)⟩)
    (fun i c b hP => ⟨hP.1.mono (by omega),
      ⟨hP.2.1.1, lt_of_le_of_lt (by omega) hP.2.1.2⟩, hP.2.2⟩)
    ⟨hc, h, hl⟩
  exact ⟨this.2.1.1, this.2.2⟩

end Open

/-! ## The invariant of the timer -/

/-- A retransmission that is pending when a batch arrives is not lost to it: there is no batch, or
the base advances, or the base is the next packet anyway, or these are the duplicates that ask for
it again, or the packet after the last one sent is in the window. -/
def RetransKept (stat : SenderStat) (acks : List AckPacket) : Prop :=
  stat.retrans = false ∨ acks = [] ∨ (∃ a ∈ acks, stat.sendBase < a.ackNum) ∨
    stat.lastSent < stat.sendBase ∨
    (stat.cwnd.state.dupAck = .dupAck ∧ 0 < dupCount acks stat.sendBase ∧
      3 ≤ stat.cwnd.dupAck + dupCount acks stat.sendBase) ∨
    (stat.lastSent + 1 < stat.totalSeq ∧ stat.lastSent + 1 - stat.sendBase < stat.cwnd.window +
      (if stat.cwnd.state.dupAck = .dupAckFastRecov then dupCount acks stat.sendBase else 0))

/-- With the timer off and data unacknowledged, a packet may be sent. -/
structure TimerOk (stat : SenderStat) : Prop where
  ready : stat.timer.running = false → stat.sendBase < stat.totalSeq →
    allowSend stat (getNextSeq stat) = true
  opened : 1 ≤ stat.cwnd.window
  lastAck : stat.cwnd.lastAck = stat.sendBase ∨ stat.sendBase = 0

section Timer

variable {m : ℕ} {stat : SenderStat} {acks : List AckPacket}

/-- The base may be sent if the window is not empty. -/
theorem allowSend_base (hnext : getNextSeq stat = stat.sendBase) (hw : 1 ≤ stat.cwnd.window)
    (hb : stat.sendBase < stat.totalSeq) (hT : stat.totalSeq < 2 ^ 32) :
    allowSend stat (getNextSeq stat) = true := by
  rw [hnext]
  simp only [allowSend, allowSendWindow, Bool.and_eq_true, Bool.or_eq_true, decide_eq_true_eq]
  rw [sub32_of_le (le_refl _) (by omega)]
  exact ⟨Or.inr (by omega), hb⟩

theorem getNextSeq_retrans (h : stat.retrans = true) : getNextSeq stat = stat.sendBase :=
  if_pos (Or.inl h)

/-- **A batch without an advance, a timeout or a third duplicate** leaves a packet to send, if it
does not lose the retransmission. -/
theorem timerOk_idle (hs : StatOk m stat) (h : TimerOk stat) (hne : acks ≠ [])
    (hpos : ∀ a ∈ acks, 1 ≤ a.ackNum) (hle : ∀ a ∈ acks, a.ackNum ≤ stat.sendBase)
    (hk : RetransKept stat acks) (hw : stat.cwnd.window + acks.length < 2 ^ 64)
    (hno : (confirmThreeDups (batchCwnd acks stat.cwnd stat.sendBase)).2 = false)
    (recvFin : UInt8) (hrun : stat.timer.running = false) (hb : stat.sendBase < stat.totalSeq) :
    allowSend
      { stat with
        retrans := false
        cwnd := (confirmThreeDups (batchCwnd acks stat.cwnd stat.sendBase)).1
        recvFin := recvFin }
      (getNextSeq
        { stat with
          retrans := false
          cwnd := (confirmThreeDups (batchCwnd acks stat.cwnd stat.sendBase)).1
          recvFin := recvFin }) = true := by
  have hl : stat.cwnd.lastAck = stat.sendBase := by
    rcases h.lastAck with hl | h0
    · exact hl
    · obtain ⟨a, acks, rfl⟩ := List.exists_cons_of_ne_nil hne
      have h1 := hpos a List.mem_cons_self
      have h2 := hle a List.mem_cons_self
      omega
  obtain ⟨hwin, hdup⟩ := window_of_le hle hl hs.label hw hno
  have h1 := h.opened
  have hT := hs.total
  by_cases hlt : stat.lastSent < stat.sendBase
  · exact allowSend_base (if_pos (Or.inr hlt)) (by simp only [hwin]; omega) hb hT
  -- the next packet is the one after the last sent, as it was unless a retransmission was pending
  have hnext : u32 (stat.lastSent + 1) < stat.totalSeq ∧
      sub32 (u32 (stat.lastSent + 1)) stat.sendBase < stat.cwnd.window +
        (if stat.cwnd.state.dupAck = .dupAckFastRecov then dupCount acks stat.sendBase else 0) := by
    cases hr : stat.retrans with
    | false =>
      have hready := h.ready hrun hb
      rw [getNextSeq, if_neg (by simp [hr, hlt])] at hready
      simp only [allowSend, hr, allowSendWindow, Bool.false_or, Bool.and_eq_true,
        decide_eq_true_eq] at hready
      exact ⟨hready.2, by omega⟩
    | true =>
      rcases hk with hk | hk | ⟨a, ha, hk⟩ | hk | hk | ⟨hk, hkw⟩
      · exact absurd (hr.symm.trans hk) (by simp)
      · exact absurd hk hne
      · exact absurd (hle a ha) (by omega)
      · exact absurd hk hlt
      · exact absurd hk hdup
      · rw [u32_of_lt (by omega), sub32_of_le (by omega) (by omega)]
        exact ⟨hk, hkw⟩
  rw [getNextSeq, if_neg (by simp [hlt])]
  simp only [allowSend, allowSendWindow, Bool.false_or, Bool.and_eq_true, decide_eq_true_eq, hwin]
  exact ⟨hnext.2, hnext.1⟩

theorem confirmThreeDups_window (cwnd : Cwnd) :
    (confirmThreeDups cwnd).1.window = cwnd.window ∧
      (confirmThreeDups cwnd).1.lastAck = cwnd.lastAck := by
  unfold confirmThreeDups
  split <;> exact ⟨rfl, rfl⟩

theorem readEvents_of_none {ev : Events} (htimer : ∀ round, ev.expired = some round → 1 ≤ round)
    (ht : ev.hasTimeout = false) (stat : SenderStat) : readEvents ev stat = stat := by
  cases he : ev.expired with
  | none => rw [readEvents, he, if_neg (by simp)]
  | some round =>
    rw [Events.hasTimeout, he] at ht
    exact absurd (htimer round he) (by simpa using ht)

/-- **The part of an iteration before `sendpkts`** keeps the invariant. -/
theorem timerOk_process (hs : StatOk m stat) (h : TimerOk stat) {ev : Events}
    (hlen : ev.acks.length ≤ window) (hacks : ∀ a ∈ ev.acks, a.ackNum ≤ m)
    (hpos : ∀ a ∈ ev.acks, 1 ≤ a.ackNum)
    (htimer : ∀ round, ev.expired = some round → 1 ≤ round)
    (hk : RetransKept stat ev.acks) (hw : stat.cwnd.window + ev.acks.length < 2 ^ 64) :
    TimerOk (process ev stat) := by
  have hT := hs.total
  obtain ⟨hwin, hlast⟩ := opened_batchCwnd hs.cwnd hlen ⟨h.opened, hw⟩ h.lastAck
  rw [← (confirmThreeDups_window _).1] at hwin
  rw [← (confirmThreeDups_window _).2] at hlast
  have hge := le_maxAck ev.acks stat.sendBase
  obtain ⟨recvFin, hack⟩ := ackAll_eq ev.acks (readEvents ev stat)
  simp only [process]
  split
  · rename_i hany
    rw [hack]
    obtain ⟨timer, hread⟩ := readEvents_eq ev stat
    simp only [hread]
    cases hno : (confirmThreeDups (batchCwnd ev.acks stat.cwnd stat.sendBase)).2 with
    | true =>
      rw [merge_threeDups rfl]
      have hmax : (if stat.sendBase < maxAck ev.acks stat.sendBase then
          maxAck ev.acks stat.sendBase else stat.sendBase) = maxAck ev.acks stat.sendBase := by
        split <;> omega
      simp only [hmax]
      exact ⟨fun _ hb => allowSend_base (getNextSeq_retrans rfl) hwin hb hT, hwin, hlast⟩
    | false =>
      by_cases hlt : stat.sendBase < maxAck ev.acks stat.sendBase
      · rw [merge_advanced rfl hlt]
        refine ⟨fun hrun hb => allowSend_base ?_ hwin hb hT, hwin, hlast⟩
        simp only [getNextSeq, Bool.false_eq_true, false_or, decide_eq_false_iff_not] at hrun ⊢
        -- had it been sent, the timer would run
        refine if_pos (not_le.mp fun hle => ?_)
        have hmax := maxAck_le hs.base hacks
        have hm := hs.sent_le
        have hsent := hs.last
        rw [if_neg (by omega), u32_of_lt (by omega)] at hrun
        omega
      · have hmax : maxAck ev.acks stat.sendBase = stat.sendBase := by omega
        rw [hmax] at hlast ⊢
        cases ht : ev.hasTimeout with
        | true =>
          rw [merge_timeout rfl (by simp) rfl]
          refine ⟨fun _ hb => allowSend_base (getNextSeq_retrans rfl) (le_refl 1) hb hT,
            le_refl 1, ?_⟩
          simp only [timeoutCwnd]
          split <;> exact hlast
        | false =>
          rw [merge_idle rfl (by simp) rfl]
          have hne : ev.acks ≠ [] := by
            rcases hany with hne | hne
            · exact fun hnil => hne (by rw [hnil]; rfl)
            · exact absurd hne (by simp [ht])
          have heq := hread.symm.trans (readEvents_of_none htimer ht stat)
          have htm : timer = stat.timer := congrArg SenderStat.timer heq
          subst htm
          exact ⟨fun hrun hb => timerOk_idle hs h hne hpos
            (fun a ha => (mem_le_maxAck _ ha).trans_eq hmax) hk hw hno recvFin hrun hb, hwin, hlast⟩
  · rename_i hnone
    rw [not_or] at hnone
    rw [readEvents_of_none htimer (by simpa using hnone.2)]
    exact h

end Timer

/-! ## Runs -/

section Send

variable {file : List UInt8} {res : ℕ → SendtoResult} {s s' : Sender}

/-- The loop of `sendpkts` either starts the timer or leaves the state as it was; it does the
latter with a packet to send only if the socket is full. -/
theorem sendLoop_timer : ∀ (fuel i seq : ℕ) (s : Sender),
    sendLoop file res fuel i seq s = some (s', 0) →
      s'.stat.cwnd = s.stat.cwnd ∧ s'.stat.sendBase = s.stat.sendBase ∧
      s'.stat.totalSeq = s.stat.totalSeq ∧
      (s'.stat.timer.running = true ∨
        s'.stat = s.stat ∧ (allowSend s.stat seq = true → s'.sockWritable = false)) := by
  intro fuel
  induction fuel with
  | zero =>
    intro i seq s h
    rw [sendLoop] at h
    split at h
    · exact absurd h (by simp)
    · rename_i ha
      obtain ⟨rfl, -⟩ := Prod.mk.inj (Option.some.inj h)
      exact ⟨rfl, rfl, rfl, Or.inr ⟨rfl, fun hc => absurd hc ha⟩⟩
  | succ fuel ih =>
    intro i seq s h
    rw [sendLoop] at h
    split at h
    · simp only at h
      split at h
      · obtain ⟨rfl, -⟩ := Prod.mk.inj (Option.some.inj h)
        exact ⟨rfl, rfl, rfl, Or.inr ⟨rfl, fun _ => rfl⟩⟩
      · exact absurd (Prod.mk.inj (Option.some.inj h)).2 (by decide)
      · obtain ⟨hc, hb, hT, hr⟩ := ih _ _ _ h
        obtain ⟨hc', hb', hT', -, htm, -⟩ := updateNextSeq_frame
          { s.stat with timer := startTimerIfNotRunning s.stat.timer } seq
        refine ⟨hc.trans hc', hb.trans hb', hT.trans hT', Or.inl ?_⟩
        rcases hr with hr | ⟨hr, -⟩
        · exact hr
        · rw [hr, htm, startTimerIfNotRunning_eq]
    · rename_i ha
      obtain ⟨rfl, -⟩ := Prod.mk.inj (Option.some.inj h)
      exact ⟨rfl, rfl, rfl, Or.inr ⟨rfl, fun hc => absurd hc ha⟩⟩

/-- **`sendpkts`** keeps the invariant, and does not leave the sender waiting for nothing. -/
theorem timerOk_sendpkts (h : TimerOk s.stat) (hs : sendpkts file res s = some (s', 0)) :
    TimerOk s'.stat ∧ (s'.stat.sendBase < s'.stat.totalSeq →
      s'.stat.timer.running = true ∨ s'.sockWritable = false) := by
  unfold sendpkts at hs
  split at hs
  · rename_i ha
    rw [Bool.and_eq_true] at ha
    obtain ⟨hc, hb, hT, hr | ⟨hr, hw⟩⟩ := sendLoop_timer _ _ _ _ hs
    · refine ⟨⟨fun hf => absurd (hf.symm.trans hr) (by decide), hc ▸ h.opened, ?_⟩,
        fun _ => Or.inl hr⟩
      rw [hc, hb]
      exact h.lastAck
    · rw [hr]
      exact ⟨h, fun _ => Or.inr (hw ha.2)⟩
  · rename_i ha
    obtain ⟨rfl, -⟩ := Prod.mk.inj (Option.some.inj hs)
    refine ⟨h, fun hb => ?_⟩
    cases hr : s.stat.timer.running with
    | true => exact Or.inl rfl
    | false => exact Or.inr (by simpa [h.ready hr hb] using ha)

end Send

/-- Events of an iteration with acks of a receiver and expiries of the running timer. -/
structure Genuine (s : Sender) (ev : Events) : Prop where
  acks : AcksSent s ev
  pos : ∀ a ∈ ev.acks, 1 ≤ a.ackNum
  timer : ∀ round, ev.expired = some round → s.stat.timer.running = true ∧ 1 ≤ round

/-- One iteration of the event loop with such events. -/
def Looped (file : List UInt8) (s s' : Sender) : Prop :=
  ∃ ev res, s.stat.sendBase < s.stat.totalSeq ∧ Genuine s ev ∧
    iterate file res ev s = some (s', 0)

/-- One iteration whose batch keeps a pending retransmission and does not wrap the window. -/
def LoopedKept (file : List UInt8) (s s' : Sender) : Prop :=
  ∃ ev res, s.stat.sendBase < s.stat.totalSeq ∧ Genuine s ev ∧
    RetransKept s.stat ev.acks ∧ s.stat.cwnd.window + ev.acks.length < 2 ^ 64 ∧
    iterate file res ev s = some (s', 0)

theorem timerOk_init (totalBytes : ℕ) : TimerOk (Sender.init totalBytes).stat := by
  have hw : 1 ≤ initCwnd.window := by decide
  have hnext : getNextSeq (Sender.init totalBytes).stat = 0 :=
    (if_neg (by simp [Sender.init, initSenderStat])).trans
      (show u32 (2 ^ 32 - 1 + 1) = 0 by decide)
  exact ⟨fun _ hb => allowSend_base hnext hw hb (u32_lt _), hw, Or.inr rfl⟩

/-- What holds whenever control returns to `epoll_wait`. -/
structure Waiting (s : Sender) : Prop where
  sender : ∃ m, SenderOk m s
  timer : TimerOk s.stat
  owed : s.stat.sendBase < s.stat.totalSeq → s.stat.timer.running = true ∨ s.sockWritable = false

theorem waiting_started {file : List UInt8} {totalBytes : ℕ} {s : Sender}
    (h : Started file totalBytes s) : Waiting s := by
  obtain ⟨res, hs⟩ := h
  obtain ⟨htimer, howed⟩ := timerOk_sendpkts (timerOk_init totalBytes) hs
  exact ⟨senderOk_runs (Runs.start ⟨res, hs⟩), htimer, howed⟩

theorem waiting_looped {file : List UInt8} {s s' : Sender} (h : Waiting s)
    (hs : LoopedKept file s s') : Waiting s' := by
  obtain ⟨ev, res, -, hev, hk, hw, hit⟩ := hs
  obtain ⟨m, hok⟩ := h.sender
  have hacks : ∀ a ∈ ev.acks, a.ackNum ≤ m := fun a ha =>
    (hev.acks.2 a ha).trans hok.nextUnsent_le
  have hproc := timerOk_process hok.stat h.timer hev.acks.1 hacks hev.pos
    (fun round hr => (hev.timer round hr).2) hk hw
  obtain ⟨s'', r, m', hit', hok', -⟩ := hok.iterated file hev.acks res
  rw [hit] at hit'
  obtain ⟨rfl, -⟩ := Prod.mk.inj (Option.some.inj hit')
  unfold iterate at hit
  obtain ⟨htimer, howed⟩ := timerOk_sendpkts hproc hit
  exact ⟨⟨m', hok'⟩, htimer, howed⟩

/-- **The sender does not stall** in a run whose batches keep a pending retransmission and do not
wrap the window: whenever control returns to `epoll_wait` with data unacknowledged, the timer runs
or an `EPOLLOUT` is owed. -/
theorem not_stalled (file : List UInt8) (totalBytes : ℕ) (s : Sender)
    (h : Runs (Started file totalBytes) (LoopedKept file) s)
    (hb : s.stat.sendBase < s.stat.totalSeq) :
    s.stat.timer.running = true ∨ s.sockWritable = false :=
  (Runs.invariant (I := Waiting) (fun _ h => waiting_started h)
    (fun _ _ h hs => waiting_looped h hs) h).owed hb

/-! ## The stall -/

/-- The sender after an iteration with one result of `sendto`. -/
def nextSender (res : SendtoResult) (ev : Events) (s : Sender) : Sender :=
  ((iterate twoPackets (fun _ => res) ev s).getD (s, -1)).1

/-- Two packets sent, the first one acked. -/
def firstAcked : Sender :=
  nextSender .sent ⟨[⟨0, 1, 0⟩], false, none⟩
    ((sendpkts twoPackets (fun _ => .sent) (Sender.init 2888)).getD (Sender.init 2888, -1)).1

/-- The timer has expired while the socket is full. -/
def retransPending : Sender := nextSender .eagain ⟨[], false, some 1⟩ firstAcked

/-- The ack of the first packet again, with the `EPOLLOUT`. -/
def stalled : Sender := nextSender .sent ⟨[⟨0, 1, 0⟩], true, none⟩ retransPending

theorem retransPending_runs :
    Runs (Started twoPackets 2888) (LoopedKept twoPackets) retransPending := by
  have h1 : Runs (Started twoPackets 2888) (LoopedKept twoPackets) firstAcked :=
    Runs.next (Runs.start ⟨fun _ => .sent, rfl⟩) ⟨⟨[⟨0, 1, 0⟩], false, none⟩, fun _ => .sent,
      by decide +kernel, ⟨by decide +kernel, by decide, by simp⟩, Or.inl (by decide +kernel),
      by decide +kernel, rfl⟩
  exact Runs.next h1 ⟨⟨[], false, some 1⟩, fun _ => .eagain, by decide +kernel,
    ⟨by decide +kernel, by decide, fun round hr => ⟨by decide +kernel, by simp_all⟩⟩,
    Or.inr (Or.inl rfl), by decide +kernel, rfl⟩

theorem not_stalled_retransPending :
    retransPending.stat.sendBase < retransPending.stat.totalSeq ∧
      (retransPending.stat.timer.running = true ∨ retransPending.sockWritable = false) :=
  ⟨by decide +kernel, not_stalled twoPackets 2888 retransPending retransPending_runs
    (by decide +kernel)⟩

/-- **The stall**: the second ack drops the retransmission, and nothing is owed. -/
theorem stalls : ¬ ∀ s, Runs (Started twoPackets 2888) (Looped twoPackets) s →
    s.stat.sendBase < s.stat.totalSeq → s.stat.timer.running = true ∨ s.sockWritable = false := by
  intro h
  have hpending : Runs (Started twoPackets 2888) (Looped twoPackets) retransPending :=
    retransPending_runs.mono (fun _ h => h) fun _ _ ⟨ev, res, hb, hev, _, _, hit⟩ =>
      ⟨ev, res, hb, hev, hit⟩
  have hstalled : Runs (Started twoPackets 2888) (Looped twoPackets) stalled :=
    Runs.next hpending ⟨⟨[⟨0, 1, 0⟩], true, none⟩, fun _ => .sent, by decide +kernel,
      ⟨by decide +kernel, by decide, by simp⟩, rfl⟩
  exact absurd (h stalled hstalled (by decide +kernel)) (by decide +kernel)

end NetworkingLearning.Transfer
