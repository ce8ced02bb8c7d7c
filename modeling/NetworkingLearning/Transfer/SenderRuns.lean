import NetworkingLearning.Machine.Runs
import NetworkingLearning.Transfer.Sender

/-!
# What the sender puts on the wire (`sender_main.c:114-198`, `sender_main.c:227-278`)

The invariant of the sender over all runs: the first call of `sendpkts`, and then any number of
iterations of the event loop (`Iterated`). The acks of a batch are those of a receiver of its
packets: at most one more than the largest sequence number sent (`AcksSent`). Timeouts may come and
socket buffers be full at any time.

`lastSent` begins at `2 ^ 32 - 1`, falls back on a retransmission, and `sendBase` may jump past it;
`StatOk` says how far apart they can be, with `m` the number of sequence numbers sent. It is split
along an iteration: `process` (acks and timeouts) and `sendpkts` each keep it. The cases of
`process` are the four outcomes of `merge`, each with a lemma of its own, so that no later proof
unfolds it.

Results:
* `merge_threeDups`, `merge_advanced`, `merge_timeout`, `merge_idle`: the four outcomes of `merge`.
* `sendpkts_ends`, `sendpkts_invariant`: the loop of `sendpkts` ends, and what it preserves.
* `statOk_process`, `sendpkts_spec`: the two halves of an iteration keep the invariant.
* `wire_spec`: every packet sent lies in the window at that moment, the sequence numbers sent are an
  initial segment, and every call of `sendpkts` ends.

Out of scope: acks beyond what was sent, which only another program could send. Both programs
together are in `Session`, where the acks are those of the receiver.
-/

namespace NetworkingLearning.Transfer

open NetworkingLearning.Machine

/-! ## Merging -/

section Merge

variable {stat : SenderStat} {pending : DiffStat} {hasTimeout : Bool}

@[simp] theorem stopTimer_eq (timer : Timer) : stopTimer timer = ⟨false⟩ := by
  obtain ⟨running⟩ := timer
  cases running <;> rfl

@[simp] theorem startTimerIfNotRunning_eq (timer : Timer) :
    startTimerIfNotRunning timer = ⟨true⟩ := by
  obtain ⟨running⟩ := timer
  cases running <;> rfl

theorem merge_threeDups (h : pending.threeDups = true) :
    merge stat pending hasTimeout = { stat with
      retrans := true
      sendBase := if stat.sendBase < pending.sendBase then pending.sendBase else stat.sendBase
      timer := ⟨false⟩ } := by
  unfold merge
  simp only [h, stopTimer_eq]
  split <;> simp

theorem merge_advanced (h : pending.threeDups = false) (hlt : stat.sendBase < pending.sendBase) :
    merge stat pending hasTimeout = { stat with
      retrans := false
      sendBase := pending.sendBase
      timer := ⟨decide (pending.sendBase <
        getNextSeq { stat with retrans := false, sendBase := pending.sendBase })⟩ } := by
  unfold merge
  simp only [h, hlt, if_true, Bool.not_false, stopTimer_eq, startTimer]
  split
  · rename_i hn
    simp [hn]
  · rename_i hn
    simp [hn]

theorem merge_timeout (h : pending.threeDups = false) (hle : ¬ stat.sendBase < pending.sendBase)
    (ht : hasTimeout = true) :
    merge stat pending hasTimeout = { stat with
      retrans := true
      cwnd := timeoutCwnd stat.cwnd stat.sendBase
      timer := ⟨false⟩ } := by
  unfold merge
  simp only [h, hle, ht, if_false, Bool.not_false, if_true, stopTimer_eq]

theorem merge_idle (h : pending.threeDups = false) (hle : ¬ stat.sendBase < pending.sendBase)
    (ht : hasTimeout = false) :
    merge stat pending hasTimeout = { stat with retrans := false } := by
  unfold merge
  simp [h, hle, ht]

/-- `merge` raises `sendBase` to what is acked and leaves the file's numbers alone. -/
theorem merge_frame (stat : SenderStat) (pending : DiffStat) (hasTimeout : Bool) :
    (merge stat pending hasTimeout).sendBase = max stat.sendBase pending.sendBase ∧
      (merge stat pending hasTimeout).totalSeq = stat.totalSeq ∧
      (merge stat pending hasTimeout).lastChunk = stat.lastChunk ∧
      (hasTimeout = false → (merge stat pending hasTimeout).cwnd = stat.cwnd) := by
  obtain ⟨base, threeDups⟩ := pending
  cases threeDups with
  | true =>
    rw [merge_threeDups rfl]
    refine ⟨?_, rfl, rfl, fun _ => rfl⟩
    simp only
    split <;> omega
  | false =>
    by_cases hlt : stat.sendBase < base
    · rw [merge_advanced rfl hlt]
      exact ⟨(max_eq_right hlt.le).symm, rfl, rfl, fun _ => rfl⟩
    · have hmax : stat.sendBase = max stat.sendBase base := (max_eq_left (not_lt.mp hlt)).symm
      cases hasTimeout with
      | true =>
        rw [merge_timeout rfl hlt rfl]
        exact ⟨hmax, rfl, rfl, fun hf => absurd hf (by decide)⟩
      | false =>
        rw [merge_idle rfl hlt rfl]
        exact ⟨hmax, rfl, rfl, fun _ => rfl⟩

end Merge

/-! ## A batch of acks -/

/-- The greatest ack of a batch, or `base`. -/
def maxAck (acks : List AckPacket) (base : ℕ) : ℕ := acks.foldl (fun b a => max b a.ackNum) base

@[simp] theorem maxAck_cons (a : AckPacket) (acks : List AckPacket) (base : ℕ) :
    maxAck (a :: acks) base = maxAck acks (max base a.ackNum) := rfl

theorem le_maxAck (acks : List AckPacket) (base : ℕ) : base ≤ maxAck acks base := by
  induction acks generalizing base with
  | nil => exact le_refl _
  | cons a acks ih =>
    rw [maxAck_cons]
    exact (le_max_left _ _).trans (ih _)

theorem mem_le_maxAck {acks : List AckPacket} (base : ℕ) {a : AckPacket} (ha : a ∈ acks) :
    a.ackNum ≤ maxAck acks base := by
  induction acks generalizing base with
  | nil => exact absurd ha List.not_mem_nil
  | cons b acks ih =>
    rw [maxAck_cons]
    rcases List.mem_cons.mp ha with rfl | ha
    · exact (le_max_right _ _).trans (le_maxAck acks _)
    · exact ih _ ha

theorem maxAck_le {acks : List AckPacket} {base m : ℕ} (hb : base ≤ m)
    (ha : ∀ a ∈ acks, a.ackNum ≤ m) : maxAck acks base ≤ m := by
  induction acks generalizing base with
  | nil => exact hb
  | cons a acks ih =>
    rw [maxAck_cons]
    exact ih (max_le hb (ha a List.mem_cons_self)) fun x hx => ha x (List.mem_cons_of_mem a hx)

/-- What the loop body of `ackAll` does to `cwnd` and `pending->sendBase`. -/
def ackCwndStep (st : Cwnd × ℕ) (pkt : AckPacket) : Cwnd × ℕ :=
  if pkt.ackNum ≥ st.2 then (ackCwnd st.1 pkt.ackNum, pkt.ackNum) else st

/-- `cwnd` after a batch. -/
def batchCwnd (acks : List AckPacket) (cwnd : Cwnd) (base : ℕ) : Cwnd :=
  (acks.foldl ackCwndStep (cwnd, base)).1

/-- The loop of `ackAll` changes `cwnd` and `recvFin` only, and collects the greatest ack. -/
theorem foldl_ackStep (acks : List AckPacket) (stat : SenderStat) (base : ℕ) :
    ∃ recvFin, acks.foldl ackStep (stat, base) =
      ({ stat with cwnd := batchCwnd acks stat.cwnd base, recvFin := recvFin },
        maxAck acks base) := by
  induction acks generalizing stat base with
  | nil => exact ⟨stat.recvFin, rfl⟩
  | cons a acks ih =>
    rw [List.foldl_cons, batchCwnd, List.foldl_cons, maxAck_cons]
    by_cases ha : a.ackNum ≥ base
    · obtain ⟨recvFin, h⟩ := ih { stat with
        recvFin := stat.recvFin ||| a.finByte
        cwnd := ackCwnd stat.cwnd a.ackNum } a.ackNum
      rw [show ackCwndStep (stat.cwnd, base) a = (ackCwnd stat.cwnd a.ackNum, a.ackNum) from
        if_pos ha, max_eq_right ha]
      exact ⟨recvFin, (congrArg (acks.foldl ackStep) (if_pos ha)).trans h⟩
    · obtain ⟨recvFin, h⟩ := ih stat base
      rw [show ackCwndStep (stat.cwnd, base) a = (stat.cwnd, base) from if_neg ha,
        max_eq_left (not_le.mp ha).le]
      exact ⟨recvFin, (congrArg (acks.foldl ackStep) (if_neg ha)).trans h⟩

/-- **`ackAll`**: the state but for `cwnd` and `recvFin`, and the greatest ack. -/
theorem ackAll_eq (acks : List AckPacket) (stat : SenderStat) :
    ∃ recvFin, ackAll acks stat = ({ stat with
        cwnd := (confirmThreeDups (batchCwnd acks stat.cwnd stat.sendBase)).1
        recvFin := recvFin },
      ⟨maxAck acks stat.sendBase,
        (confirmThreeDups (batchCwnd acks stat.cwnd stat.sendBase)).2⟩) := by
  obtain ⟨recvFin, h⟩ := foldl_ackStep acks stat stat.sendBase
  exact ⟨recvFin, by simp only [ackAll, h]⟩

/-- **Induction over a batch**: what one ack preserves, `k` of them in. -/
theorem batchCwnd_invariant (P : ℕ → Cwnd → ℕ → Prop) (acks : List AckPacket) :
    ∀ (cwnd : Cwnd) (base k : ℕ),
      (∀ i c b a, i < k + acks.length → b ≤ a → P i c b → P (i + 1) (ackCwnd c a) a) →
      (∀ i c b, P i c b → P (i + 1) c b) → P k cwnd base →
        P (k + acks.length) (batchCwnd acks cwnd base) (maxAck acks base) := by
  induction acks with
  | nil => exact fun _ _ _ _ _ h => h
  | cons a acks ih =>
    intro cwnd base k hack hskip h
    rw [batchCwnd, List.foldl_cons, maxAck_cons, List.length_cons,
      show k + (acks.length + 1) = k + 1 + acks.length by omega]
    have hlen : ∀ i, i < k + 1 + acks.length → i < k + (a :: acks).length := fun i hi => by
      rw [List.length_cons]
      omega
    by_cases ha : a.ackNum ≥ base
    · rw [show ackCwndStep (cwnd, base) a = (ackCwnd cwnd a.ackNum, a.ackNum) from if_pos ha,
        max_eq_right ha]
      exact ih _ _ _ (fun i c b x hi => hack i c b x (hlen i hi)) hskip
        (hack k cwnd base a.ackNum (by rw [List.length_cons]; omega) ha h)
    · rw [show ackCwndStep (cwnd, base) a = (cwnd, base) from if_neg ha,
        max_eq_left (not_le.mp ha).le]
      exact ih _ _ _ (fun i c b x hi => hack i c b x (hlen i hi)) hskip (hskip k cwnd base h)

theorem cwndOk_batchCwnd {acks : List AckPacket} {cwnd : Cwnd} (h : CwndOk 0 cwnd)
    (hlen : acks.length ≤ window) (base : ℕ) : CwndOk acks.length (batchCwnd acks cwnd base) := by
  have := batchCwnd_invariant (fun k c _ => CwndOk k c) acks cwnd base 0
    (fun i c b a hi _ hc => cwndOk_ackCwnd hc (by omega) a) (fun i c b hc => hc.mono (by omega)) h
  rwa [Nat.zero_add] at this

/-! ## The invariant -/

/-- The state of a sender that has sent the sequence numbers below `m`. -/
structure StatOk (m : ℕ) (stat : SenderStat) : Prop where
  total : stat.totalSeq < 2 ^ 32
  sent_le : m ≤ stat.totalSeq
  base : stat.sendBase ≤ m
  last : (m = 0 ∧ stat.lastSent = 2 ^ 32 - 1) ∨ stat.lastSent < m
  cwnd : CwndOk 0 stat.cwnd
  label : stat.cwnd.state.state ≠ .fastRecovRetrans
  retrans : stat.retrans = true → 1 ≤ stat.cwnd.window

/-- A packet within the window of the state it was sent from. -/
def InWindow (e : SenderStat × RdtPacket) : Prop :=
  e.1.sendBase ≤ e.2.seqNum ∧ e.2.seqNum < e.1.totalSeq ∧
    e.2.seqNum - e.1.sendBase < e.1.cwnd.window

/-- The sender after it has sent the sequence numbers below `m`. -/
structure SenderOk (m : ℕ) (s : Sender) : Prop where
  stat : StatOk m s.stat
  sent : ∀ q, (∃ p ∈ s.packets, p.seqNum = q) ↔ q < m
  wire : ∀ e ∈ s.wire, InWindow e

section Stat

variable {m : ℕ} {stat : SenderStat}

/-- The next sequence number: the base, or the one after the last sent. It was sent before or is
the first not sent. -/
theorem statOk_getNextSeq (h : StatOk m stat) :
    stat.sendBase ≤ getNextSeq stat ∧ getNextSeq stat ≤ m ∧
      (stat.retrans = true → getNextSeq stat = stat.sendBase) := by
  have h1 := h.total
  have h2 := h.sent_le
  have h3 := h.base
  unfold getNextSeq
  split
  · exact ⟨le_refl _, h3, fun _ => rfl⟩
  · rename_i hn
    rw [not_or] at hn
    rcases h.last with ⟨h0, hl⟩ | hl
    · have hz : u32 (stat.lastSent + 1) = 0 := by
        rw [hl]
        decide
      rw [hz]
      exact ⟨by omega, by omega, fun hr => absurd hr hn.1⟩
    · rw [u32_of_lt (show stat.lastSent + 1 < 2 ^ 32 by omega)]
      exact ⟨by omega, by omega, fun hr => absurd hr hn.1⟩

/-- A packet the state allows is in the window. -/
theorem StatOk.inWindow (h : StatOk m stat) (ha : allowSend stat (getNextSeq stat) = true)
    (file : List UInt8) : InWindow (stat, buildPacket file stat (getNextSeq stat)) := by
  obtain ⟨h1, h2, h3⟩ := statOk_getNextSeq h
  have ht := h.total
  have hm := h.sent_le
  simp only [allowSend, Bool.and_eq_true, Bool.or_eq_true, decide_eq_true_eq] at ha
  refine ⟨h1, ha.2, ?_⟩
  simp only [buildPacket_seqNum]
  rcases ha.1 with hr | hw
  · rw [h3 hr, Nat.sub_self]
    exact h.retrans hr
  · simp only [allowSendWindow, decide_eq_true_eq] at hw
    rwa [sub32_of_le h1 (by omega)] at hw

theorem updateNextSeq_frame (stat : SenderStat) (lastSent : ℕ) :
    (updateNextSeq stat lastSent).1.cwnd = stat.cwnd ∧
      (updateNextSeq stat lastSent).1.sendBase = stat.sendBase ∧
      (updateNextSeq stat lastSent).1.totalSeq = stat.totalSeq ∧
      (updateNextSeq stat lastSent).1.lastChunk = stat.lastChunk ∧
      (updateNextSeq stat lastSent).1.timer = stat.timer ∧
      (updateNextSeq stat lastSent).1.lastSent = lastSent ∧
      (updateNextSeq stat lastSent).1.retrans =
        (stat.retrans && decide (lastSent ≠ stat.sendBase)) := by
  simp only [updateNextSeq]
  split
  · rename_i h
    split <;> exact ⟨rfl, rfl, rfl, rfl, rfl, rfl, by simp [h]⟩
  · rename_i h
    split <;> exact ⟨rfl, rfl, rfl, rfl, rfl, rfl, by simp [h]⟩

theorem lt_totalSeq {q : ℕ} (ha : allowSend stat q = true) : q < stat.totalSeq := by
  simp only [allowSend, Bool.and_eq_true, decide_eq_true_eq] at ha
  exact ha.2

/-- **The number after one that is sent.** The flag is down then: it was, or the number sent is the
base. -/
theorem updateNextSeq_sent (htotal : stat.totalSeq < 2 ^ 32)
    (ha : allowSend stat (getNextSeq stat) = true) (timer : Timer) :
    (updateNextSeq { stat with timer := timer } (getNextSeq stat)).1.retrans = false ∧
      (updateNextSeq { stat with timer := timer } (getNextSeq stat)).2 =
        if getNextSeq stat < stat.sendBase then stat.sendBase else getNextSeq stat + 1 := by
  have hlt := lt_totalSeq ha
  obtain ⟨-, hs, -, -, -, hl, hr'⟩ :=
    updateNextSeq_frame { stat with timer := timer } (getNextSeq stat)
  simp only at hs hr'
  have hr : (updateNextSeq { stat with timer := timer } (getNextSeq stat)).1.retrans = false := by
    rw [hr']
    cases hr : stat.retrans with
    | false => rfl
    | true => simp [getNextSeq, hr]
  refine ⟨hr, ?_⟩
  change getNextSeq (updateNextSeq { stat with timer := timer } (getNextSeq stat)).1 = _
  rw [getNextSeq, hr, hl, hs, u32_of_lt (by omega)]
  simp

/-- **`updateNextSeq` after a packet was sent**: the next one is its successor. -/
theorem statOk_updateNextSeq (h : StatOk m stat)
    (ha : allowSend stat (getNextSeq stat) = true) (timer : Timer) :
    StatOk (max m (getNextSeq stat + 1))
        (updateNextSeq { stat with timer := timer } (getNextSeq stat)).1 ∧
      (updateNextSeq { stat with timer := timer } (getNextSeq stat)).2 =
        getNextSeq (updateNextSeq { stat with timer := timer }
          (getNextSeq stat)).1 ∧
      (updateNextSeq { stat with timer := timer } (getNextSeq stat)).2 =
        getNextSeq stat + 1 := by
  obtain ⟨h1, h2, h3⟩ := statOk_getNextSeq h
  have ht := h.total
  have hm := h.sent_le
  have hb := h.base
  have hlt := lt_totalSeq ha
  obtain ⟨hr, hnext⟩ := updateNextSeq_sent ht ha timer
  rw [if_neg (not_lt.mpr h1)] at hnext
  generalize hq : getNextSeq stat = q at *
  obtain ⟨hc, hs, hst, -, -, hl, -⟩ := updateNextSeq_frame { stat with timer := timer } q
  simp only at hc hs hst
  refine ⟨⟨?_, ?_, ?_, Or.inr ?_, ?_, ?_, fun h => ?_⟩, rfl, hnext⟩
  · rw [hst]
    exact ht
  · rw [hst]
    omega
  · rw [hs]
    omega
  · rw [hl]
    omega
  · rw [hc]
    exact h.cwnd
  · rw [hc]
    exact h.label
  · rw [hr] at h
    exact absurd h (by simp)

theorem readEvents_eq (ev : Events) (stat : SenderStat) :
    ∃ timer, readEvents ev stat = { stat with timer := timer } := by
  unfold readEvents
  split
  · exact ⟨⟨false⟩, rfl⟩
  · exact ⟨stat.timer, rfl⟩

/-- An iteration raises `sendBase` to the greatest ack of its batch. -/
theorem process_frame (ev : Events) (stat : SenderStat) :
    (process ev stat).sendBase = maxAck ev.acks stat.sendBase ∧
      (process ev stat).totalSeq = stat.totalSeq ∧
      (process ev stat).lastChunk = stat.lastChunk ∧
      (ev.acks ≠ [] → ev.hasTimeout = false → (process ev stat).cwnd =
        (confirmThreeDups (batchCwnd ev.acks stat.cwnd stat.sendBase)).1) := by
  obtain ⟨timer, hread⟩ := readEvents_eq ev stat
  simp only [process, hread]
  split
  · obtain ⟨recvFin, hack⟩ := ackAll_eq ev.acks { stat with timer := timer }
    rw [hack]
    obtain ⟨hb, hT, hl, hc⟩ := merge_frame { stat with
      timer := timer
      cwnd := (confirmThreeDups (batchCwnd ev.acks stat.cwnd stat.sendBase)).1
      recvFin := recvFin } ⟨maxAck ev.acks stat.sendBase,
        (confirmThreeDups (batchCwnd ev.acks stat.cwnd stat.sendBase)).2⟩ ev.hasTimeout
    exact ⟨hb.trans (max_eq_right (le_maxAck _ _)), hT, hl, fun _ => hc⟩
  · rename_i hnone
    rw [not_or, not_not] at hnone
    have hnil := List.length_eq_zero_iff.mp hnone.1
    rw [hnil]
    exact ⟨rfl, rfl, rfl, fun hne => absurd rfl hne⟩

/-- **The part of an iteration before `sendpkts`** keeps the invariant. -/
theorem statOk_process (h : StatOk m stat) {ev : Events} (hlen : ev.acks.length ≤ window)
    (hacks : ∀ a ∈ ev.acks, a.ackNum ≤ m) : StatOk m (process ev stat) := by
  have hread : StatOk m (readEvents ev stat) := by
    unfold readEvents
    split
    · exact ⟨h.total, h.sent_le, h.base, h.last, h.cwnd, h.label, h.retrans⟩
    · exact h
  generalize hs : readEvents ev stat = stat' at hread
  unfold process
  simp only [hs]
  split
  · obtain ⟨recvFin, hack⟩ := ackAll_eq ev.acks stat'
    obtain ⟨hc, hl, hw⟩ :=
      cwndOk_confirmThreeDups (cwndOk_batchCwnd hread.cwnd hlen stat'.sendBase)
    have hmax := maxAck_le hread.base hacks
    rw [hack]
    simp only
    generalize confirmThreeDups (batchCwnd ev.acks stat'.cwnd stat'.sendBase) = conf at hc hl hw ⊢
    obtain ⟨cwnd, threeDups⟩ := conf
    cases threeDups with
    | true =>
      rw [merge_threeDups rfl]
      refine ⟨hread.total, hread.sent_le, ?_, hread.last, hc, hl, fun _ => hw rfl⟩
      simp only
      split
      · exact hmax
      · exact hread.base
    | false =>
      by_cases hlt : stat'.sendBase < maxAck ev.acks stat'.sendBase
      · rw [merge_advanced rfl hlt]
        exact ⟨hread.total, hread.sent_le, hmax, hread.last, hc, hl, fun hf => absurd hf (by simp)⟩
      · cases ht : ev.hasTimeout with
        | true =>
          rw [merge_timeout rfl hlt rfl]
          exact ⟨hread.total, hread.sent_le, hread.base, hread.last, cwndOk_timeoutCwnd hc _,
            Label.noConfusion, fun _ => le_refl 1⟩
        | false =>
          rw [merge_idle rfl hlt rfl]
          exact ⟨hread.total, hread.sent_le, hread.base, hread.last, hc, hl,
            fun hf => absurd hf (by simp)⟩
  · exact hread

end Stat

/-! ## Sending -/

/-- The sender after it has sent the next packet. -/
def Sender.sentNext (file : List UInt8) (s : Sender) : Sender :=
  { s with
    stat := (updateNextSeq { s.stat with timer := startTimerIfNotRunning s.stat.timer }
      (getNextSeq s.stat)).1
    wire := s.wire ++ [(s.stat, buildPacket file s.stat (getNextSeq s.stat))] }

section Send

variable {m : ℕ} {s : Sender} (file : List UInt8) (res : ℕ → SendtoResult)

@[simp] theorem Sender.packets_sentNext : (s.sentNext file).packets =
    s.packets ++ [buildPacket file s.stat (getNextSeq s.stat)] := List.map_append

/-- One packet more on the wire. -/
theorem SenderOk.sent_one (h : SenderOk m s)
    (ha : allowSend s.stat (getNextSeq s.stat) = true) :
    SenderOk (max m (getNextSeq s.stat + 1)) (s.sentNext file) where
  stat := (statOk_updateNextSeq h.stat ha _).1
  sent q := by
    obtain ⟨-, hle, -⟩ := statOk_getNextSeq h.stat
    have hold := h.sent q
    simp only [Sender.packets_sentNext, List.mem_append, List.mem_singleton]
    constructor
    · rintro ⟨p, hp | rfl, rfl⟩
      · have := hold.mp ⟨p, hp, rfl⟩
        omega
      · rw [buildPacket_seqNum]
        omega
    · intro hq
      by_cases hqm : q < m
      · obtain ⟨p, hp, hpq⟩ := hold.mpr hqm
        exact ⟨p, Or.inl hp, hpq⟩
      · exact ⟨_, Or.inr rfl, by rw [buildPacket_seqNum]; omega⟩
  wire e he := by
    rcases List.mem_append.mp he with he | he
    · exact h.wire e he
    · rw [List.mem_singleton.mp he]
      exact h.stat.inWindow ha file

/-- **The loop of `sendpkts` ends**: the numbers it sends grow. -/
theorem sendLoop_ends : ∀ (fuel i : ℕ) (s : Sender), s.stat.totalSeq < 2 ^ 32 →
    s.stat.totalSeq ≤ getNextSeq s.stat + fuel →
      ∃ s' r, sendLoop file res fuel i (getNextSeq s.stat) s = some (s', r) := by
  intro fuel
  induction fuel with
  | zero =>
    intro i s _ hle
    have ha : allowSend s.stat (getNextSeq s.stat) = false := by
      simp only [allowSend, Bool.and_eq_false_imp, decide_eq_false_iff_not]
      omega
    exact ⟨s, 0, by rw [sendLoop, ha]; rfl⟩
  | succ fuel ih =>
    intro i s htotal hle
    rw [sendLoop]
    cases ha : allowSend s.stat (getNextSeq s.stat) with
    | false => exact ⟨s, 0, rfl⟩
    | true =>
      simp only [if_true]
      cases res i with
      | eagain => exact ⟨_, 0, rfl⟩
      | error => exact ⟨s, -1, rfl⟩
      | sent =>
        obtain ⟨-, hnext⟩ :=
          updateNextSeq_sent htotal ha (startTimerIfNotRunning s.stat.timer)
        have hgrows : s.stat.totalSeq ≤ (updateNextSeq
            { s.stat with timer := startTimerIfNotRunning s.stat.timer }
            (getNextSeq s.stat)).2 + fuel := by
          rw [hnext]
          split <;> omega
        obtain ⟨-, -, htot, -⟩ := updateNextSeq_frame
          { s.stat with timer := startTimerIfNotRunning s.stat.timer } (getNextSeq s.stat)
        exact ih (i + 1) (s.sentNext file) (htot.trans_lt htotal) (htot.trans_le hgrows)

theorem sendpkts_ends (htotal : s.stat.totalSeq < 2 ^ 32) :
    ∃ s' r, sendpkts file res s = some (s', r) := by
  unfold sendpkts
  split
  · exact sendLoop_ends file res _ 0 s htotal (by omega)
  · exact ⟨s, 0, rfl⟩

variable {file res} {P : Sender → Prop}

/-- What the loop of `sendpkts` preserves: what sending a packet and finding the socket full do. -/
theorem sendLoop_invariant (hfull : ∀ s, P s → P { s with sockWritable := false })
    (hsent : ∀ s, P s → allowSend s.stat (getNextSeq s.stat) = true →
      P (s.sentNext file)) :
    ∀ (fuel i : ℕ) (s s' : Sender) (r : ℤ), P s →
      sendLoop file res fuel i (getNextSeq s.stat) s = some (s', r) → P s' := by
  intro fuel
  induction fuel with
  | zero =>
    intro i s s' r hP h
    rw [sendLoop] at h
    split at h
    · exact absurd h (by simp)
    · obtain ⟨rfl, -⟩ := Prod.mk.inj (Option.some.inj h)
      exact hP
  | succ fuel ih =>
    intro i s s' r hP h
    rw [sendLoop] at h
    split at h
    · rename_i ha
      simp only at h
      split at h
      · obtain ⟨rfl, -⟩ := Prod.mk.inj (Option.some.inj h)
        exact hfull s hP
      · obtain ⟨rfl, -⟩ := Prod.mk.inj (Option.some.inj h)
        exact hP
      · exact ih _ _ _ _ (hsent s hP ha) h
    · obtain ⟨rfl, -⟩ := Prod.mk.inj (Option.some.inj h)
      exact hP

/-- **What `sendpkts` preserves.** -/
theorem sendpkts_invariant (hfull : ∀ s, P s → P { s with sockWritable := false })
    (hsent : ∀ s, P s → allowSend s.stat (getNextSeq s.stat) = true →
      P (s.sentNext file))
    {s' : Sender} {r : ℤ} (hP : P s) (h : sendpkts file res s = some (s', r)) : P s' := by
  unfold sendpkts at h
  split at h
  · exact sendLoop_invariant hfull hsent _ _ _ _ _ hP h
  · obtain ⟨rfl, -⟩ := Prod.mk.inj (Option.some.inj h)
    exact hP

variable (file res)

/-- **`sendpkts` ends** and keeps the invariant. -/
theorem sendpkts_spec (h : SenderOk m s) :
    ∃ s' r m', sendpkts file res s = some (s', r) ∧ SenderOk m' s' ∧ m ≤ m' := by
  obtain ⟨s', r, hs⟩ := sendpkts_ends file res h.stat.total
  obtain ⟨m', hok, hm⟩ := sendpkts_invariant (P := fun s => ∃ m', SenderOk m' s ∧ m ≤ m')
    (fun s ⟨m', hs, hm⟩ => ⟨m', ⟨hs.stat, hs.sent, hs.wire⟩, hm⟩)
    (fun s ⟨m', hs, hm⟩ ha => ⟨_, hs.sent_one file ha, by omega⟩) ⟨m, h, le_refl m⟩ hs
  exact ⟨s', r, m', hs, hok, hm⟩

/-- The loop of `sendpkts` stops at a packet that may not be sent, if no call of `sendto` fails. -/
theorem sendLoop_all : ∀ (fuel i : ℕ) (s s' : Sender) (r : ℤ),
    sendLoop file (fun _ => .sent) fuel i (getNextSeq s.stat) s = some (s', r) →
      r = 0 ∧ s'.sockWritable = s.sockWritable ∧
      allowSend s'.stat (getNextSeq s'.stat) = false := by
  intro fuel
  induction fuel with
  | zero =>
    intro i s s' r h
    rw [sendLoop] at h
    split at h
    · exact absurd h (by simp)
    · rename_i ha
      obtain ⟨rfl, rfl⟩ := Prod.mk.inj (Option.some.inj h)
      exact ⟨rfl, rfl, by simpa using ha⟩
  | succ fuel ih =>
    intro i s s' r h
    rw [sendLoop] at h
    split at h
    · exact ih (i + 1) (s.sentNext file) s' r h
    · rename_i ha
      obtain ⟨rfl, rfl⟩ := Prod.mk.inj (Option.some.inj h)
      exact ⟨rfl, rfl, by simpa using ha⟩

/-- **A call of `sendpkts` without a failing `sendto`** sends the whole window. -/
theorem sendpkts_all (h : SenderOk m s) (hw : s.sockWritable = true) :
    ∃ s' m', sendpkts file (fun _ => .sent) s = some (s', 0) ∧ SenderOk m' s' ∧
      s'.sockWritable = true ∧
      (s'.stat.totalSeq ≤ m' ∨ s'.stat.sendBase + s'.stat.cwnd.window ≤ m') := by
  obtain ⟨s', r, m', hs, hok, -⟩ := sendpkts_spec file (fun _ => .sent) h
  obtain ⟨rfl, hw', ha⟩ : r = 0 ∧ s'.sockWritable = s.sockWritable ∧
      allowSend s'.stat (getNextSeq s'.stat) = false := by
    unfold sendpkts at hs
    split at hs
    · exact sendLoop_all file _ _ _ _ _ hs
    · rename_i ha
      obtain ⟨rfl, rfl⟩ := Prod.mk.inj (Option.some.inj hs)
      exact ⟨rfl, rfl, by simpa [hw] using ha⟩
  refine ⟨s', m', hs, hok, hw'.trans hw, ?_⟩
  obtain ⟨h1, h2, -⟩ := statOk_getNextSeq hok.stat
  have hT := hok.stat.total
  have hm := hok.stat.sent_le
  by_cases hlt : getNextSeq s'.stat < s'.stat.totalSeq
  · simp only [allowSend, allowSendWindow, hlt, decide_true, Bool.and_true, Bool.or_eq_false_iff,
      decide_eq_false_iff_not, not_lt] at ha
    rw [sub32_of_le h1 (by omega)] at ha
    omega
  · omega

theorem iterate_spec (h : SenderOk m s) {ev : Events} (hlen : ev.acks.length ≤ window)
    (hacks : ∀ a ∈ ev.acks, a.ackNum ≤ m) :
    ∃ s' r m', iterate file res ev s = some (s', r) ∧ SenderOk m' s' ∧ m ≤ m' :=
  sendpkts_spec file res ⟨statOk_process h.stat hlen hacks, h.sent, h.wire⟩

end Send

/-! ## Runs -/

/-- `1 +` the largest sequence number sent, `0` before the first. -/
def nextUnsent (s : Sender) : ℕ := (s.packets.map fun p => p.seqNum + 1).foldl max 0

theorem foldl_max_le {l : List ℕ} {b m : ℕ} : l.foldl max b ≤ m ↔ b ≤ m ∧ ∀ x ∈ l, x ≤ m := by
  induction l generalizing b with
  | nil => simp
  | cons a l ih =>
    rw [List.foldl_cons, ih, max_le_iff, List.forall_mem_cons, and_assoc]

theorem SenderOk.nextUnsent_le {m : ℕ} {s : Sender} (h : SenderOk m s) : nextUnsent s ≤ m := by
  refine foldl_max_le.mpr ⟨Nat.zero_le m, fun x hx => ?_⟩
  obtain ⟨p, hp, rfl⟩ := List.mem_map.mp hx
  exact (h.sent p.seqNum).mp ⟨p, hp, rfl⟩

/-- The sender after its first call of `sendpkts`. -/
def Started (file : List UInt8) (totalBytes : ℕ) (s : Sender) : Prop :=
  ∃ res, sendpkts file res (Sender.init totalBytes) = some (s, 0)

/-- Events whose acks do not exceed `1 +` the largest sequence number sent. -/
def AcksSent (s : Sender) (ev : Events) : Prop :=
  ev.acks.length ≤ window ∧ ∀ a ∈ ev.acks, a.ackNum ≤ nextUnsent s

instance (s : Sender) (ev : Events) : Decidable (AcksSent s ev) :=
  inferInstanceAs (Decidable (_ ∧ _))

/-- One iteration of the event loop. -/
def Iterated (file : List UInt8) (s s' : Sender) : Prop :=
  ∃ ev res, s.stat.sendBase < s.stat.totalSeq ∧ AcksSent s ev ∧
    iterate file res ev s = some (s', 0)

section Runs

variable {file : List UInt8} {totalBytes : ℕ} {s s' : Sender}

theorem senderOk_init : SenderOk 0 (Sender.init totalBytes) where
  stat := ⟨u32_lt _, Nat.zero_le _, le_refl 0, Or.inl ⟨rfl, rfl⟩, cwndOk_init, Label.noConfusion,
    fun h => absurd h (by simp [Sender.init, initSenderStat])⟩
  sent q := by simp [Sender.packets, Sender.init]
  wire e he := absurd he (by simp [Sender.init])

theorem SenderOk.iterated {m : ℕ} (h : SenderOk m s) (file : List UInt8) {ev : Events}
    (hev : AcksSent s ev) (res : ℕ → SendtoResult) :
    ∃ s' r m', iterate file res ev s = some (s', r) ∧ SenderOk m' s' ∧ m ≤ m' :=
  iterate_spec file res h hev.1 fun a ha => (hev.2 a ha).trans h.nextUnsent_le

theorem senderOk_runs (h : Runs (Started file totalBytes) (Iterated file) s) :
    ∃ m, SenderOk m s := by
  refine Runs.invariant (I := fun s => ∃ m, SenderOk m s) ?_ ?_ h
  · rintro s ⟨res, hs⟩
    obtain ⟨s', r, m, h', hok, -⟩ := sendpkts_spec file res senderOk_init
    rw [hs] at h'
    obtain ⟨rfl, -⟩ := Prod.mk.inj (Option.some.inj h')
    exact ⟨m, hok⟩
  · rintro s s' ⟨m, hok⟩ ⟨ev, res, -, hev, hs⟩
    obtain ⟨s'', r, m', h', hok', -⟩ := hok.iterated file hev res
    rw [hs] at h'
    obtain ⟨rfl, -⟩ := Prod.mk.inj (Option.some.inj h')
    exact ⟨m', hok'⟩

end Runs

/-- **What the sender puts on the wire**, for acks up to `1 +` the largest sequence number sent,
timeouts and full socket buffers at any time: every packet sent lies in the window at that moment,
the sequence numbers sent are those below some `m`, and every call of `sendpkts` ends. -/
theorem wire_spec (file : List UInt8) (totalBytes : ℕ) :
    (∀ res, ∃ s r, sendpkts file res (Sender.init totalBytes) = some (s, r)) ∧
    ∀ s, Runs (Started file totalBytes) (Iterated file) s →
      (∀ e ∈ s.wire, e.1.sendBase ≤ e.2.seqNum ∧ e.2.seqNum < e.1.totalSeq ∧
        e.2.seqNum - e.1.sendBase < e.1.cwnd.window) ∧
      (∃ m, ∀ q, (∃ p ∈ s.packets, p.seqNum = q) ↔ q < m) ∧
      ∀ ev res, AcksSent s ev → ∃ s' r, iterate file res ev s = some (s', r) := by
  constructor
  · intro res
    obtain ⟨s, r, m, h, -⟩ := sendpkts_spec file res senderOk_init
    exact ⟨s, r, h⟩
  · intro s hs
    obtain ⟨m, hok⟩ := senderOk_runs hs
    refine ⟨hok.wire, ⟨m, hok.sent⟩, fun ev res hev => ?_⟩
    obtain ⟨s', r, _, h, -⟩ := hok.iterated file hev res
    exact ⟨s', r, h⟩

theorem wire_spec_twoPackets :
    (initSenderStat 2888).totalSeq = 2 ∧
    (∃ s r, sendpkts twoPackets (fun _ => .sent) (Sender.init 2888) = some (s, r)) ∧
    ∀ s, Runs (Started twoPackets 2888) (Iterated twoPackets) s →
      ∀ e ∈ s.wire, e.1.sendBase ≤ e.2.seqNum ∧ e.2.seqNum < e.1.totalSeq ∧
        e.2.seqNum - e.1.sendBase < e.1.cwnd.window := by
  have h := wire_spec twoPackets 2888
  exact ⟨by decide, h.1 _, fun s hs => (h.2 s hs).1⟩

end NetworkingLearning.Transfer
