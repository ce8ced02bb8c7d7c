import NetworkingLearning.Machine.Words

/-!
# The congestion window (`adt.c:18-129`)

Model of `struct CongestionWindow` and of all functions that change it: `__clearDup`,
`__halveWindow` (`adt.c:23-29`), the handlers of an ack and of a duplicate (`adt.c:31-76`), the
transitions (`adt.c:47-86`), `initCwnd` (`adt.c:88-94`), and the three calls that the sender makes:
`ackCwnd` (`adt.c:96-109`), `confirmThreeDups` (`adt.c:111-118`) and `timeoutCwnd`
(`adt.c:120-129`).

* The state holds a label (`state`) and two function pointers (`ack`, `dupAck`). They are three
  separate fields here as in the source, since `__toFastRecov` changes the label alone. A pointer is
  an enumeration of what it may point to, and a call through it is `callAck` or `callDupAck`.
* `window`, `ackThisRound` and `ssthresh` are `size_t`: sums are taken modulo `2 ^ 64`. `timeoutAck`
  and `lastAck` are `uint32_t`, and `-1` is the greatest of them. `ack - cwnd->lastAck` is a
  difference of two `uint32_t`.
* The counter `dupAck` is an `int` that is reset by every ack that is no duplicate, and by the entry
  into fast recovery no longer raised; it stays far from its bounds, and is an integer here.
* `initCwnd` leaves `ackThisRound` unset; `__toCongAvoid` clears it before it is read. It is `0`
  here.

`CwndOk` bounds the window inside a batch of acks: an entry into `FAST_RECOV_RETRANS` sets it to at
most `2 ^ 63 + 3`, and a batch has at most `WINDOW` acks, so it does not wrap before
`confirmThreeDups` takes the label back.

Out of scope: `priorWindow`, which is written once and never read.

Results:
* `cwndOk_ackCwnd`: one ack keeps the window in bounds.
* `cwndOk_confirmThreeDups`, `cwndOk_timeoutCwnd`: the two calls at the end of a batch.
-/

namespace NetworkingLearning.Transfer

open NetworkingLearning.Machine

/-- `MAX_PAYLOAD_LEN`. -/
def maxPayloadLen : ℕ := 1444

/-- `WINDOW`. -/
def window : ℕ := 4096

/-- The labels `SLOW_START`, `CONGEST_AVOID`, `FAST_RECOV`, `FAST_RECOV_RETRANS`. -/
inductive Label
  | slowStart
  | congestAvoid
  | fastRecov
  | fastRecovRetrans
  deriving DecidableEq

/-- What `state.ack` points to: `__ackSlowStart`, `__ackCongAvoid`, `__ackFastRecov`. -/
inductive AckHandler
  | ackSlowStart
  | ackCongAvoid
  | ackFastRecov
  deriving DecidableEq

/-- What `state.dupAck` points to: `__dupAck`, `__dupAckFastRecov`. -/
inductive DupAckHandler
  | dupAck
  | dupAckFastRecov
  deriving DecidableEq

/-- `struct CongestionState`. -/
structure CState where
  state : Label
  ack : AckHandler
  dupAck : DupAckHandler
  deriving DecidableEq

/-- `struct CongestionWindow`. -/
structure Cwnd where
  window : ℕ
  ackThisRound : ℕ
  ssthresh : ℕ
  timeoutAck : ℕ
  lastAck : ℕ
  dupAck : ℤ
  state : CState
  deriving DecidableEq

/-- `__clearDup`. -/
def clearDup (cwnd : Cwnd) : Cwnd := { cwnd with dupAck := 0 }

/-- `__halveWindow`. -/
def halveWindow (cwnd : Cwnd) : Cwnd :=
  { cwnd with ssthresh := if cwnd.window > 2 then cwnd.window >>> 1 else 2 }

/-- `__toSlowStart`. -/
def toSlowStart (cwnd : Cwnd) : Cwnd := { cwnd with state := ⟨.slowStart, .ackSlowStart, .dupAck⟩ }

/-- `__toCongAvoid`. -/
def toCongAvoid (cwnd : Cwnd) : Cwnd :=
  { cwnd with state := ⟨.congestAvoid, .ackCongAvoid, .dupAck⟩, ackThisRound := 0 }

/-- `__toFastRecov`: the label alone. -/
def toFastRecov (cwnd : Cwnd) : Cwnd :=
  { cwnd with state := { cwnd.state with state := .fastRecov } }

/-- `__toFastRecovRetrans`. -/
def toFastRecovRetrans (cwnd : Cwnd) : Cwnd :=
  { cwnd with state := ⟨.fastRecovRetrans, .ackFastRecov, .dupAckFastRecov⟩ }

/-- `__dupAck`. -/
def dupAck (cwnd : Cwnd) : Cwnd :=
  let cwnd := { cwnd with dupAck := cwnd.dupAck + 1 }
  if cwnd.dupAck ≥ 3 then
    let cwnd := halveWindow cwnd
    toFastRecovRetrans { cwnd with window := u64 (cwnd.ssthresh + 3) }
  else cwnd

/-- `__ackSlowStart`. -/
def ackSlowStart (cwnd : Cwnd) : Cwnd :=
  let cwnd := clearDup cwnd
  let cwnd := { cwnd with window := u64 (cwnd.window + 1) }
  if cwnd.window ≥ cwnd.ssthresh then toCongAvoid cwnd else cwnd

/-- `__ackCongAvoid`. -/
def ackCongAvoid (cwnd : Cwnd) (ack : ℕ) : Cwnd :=
  let cwnd := clearDup cwnd
  let cwnd := { cwnd with ackThisRound := u64 (cwnd.ackThisRound + sub32 ack cwnd.lastAck) }
  if cwnd.ackThisRound ≥ cwnd.window then
    { cwnd with window := u64 (cwnd.window + 1), ackThisRound := 0 }
  else cwnd

/-- `__ackFastRecov`. -/
def ackFastRecov (cwnd : Cwnd) : Cwnd :=
  toCongAvoid (clearDup { cwnd with window := cwnd.ssthresh })

/-- `__dupAckFastRecov`. -/
def dupAckFastRecov (cwnd : Cwnd) : Cwnd := { cwnd with window := u64 (cwnd.window + 1) }

/-- `initCwnd`. -/
def initCwnd : Cwnd :=
  toSlowStart
    { window := 4
      ackThisRound := 0
      ssthresh := 4096
      timeoutAck := 2 ^ 32 - 1
      lastAck := 2 ^ 32 - 1
      dupAck := 0
      state := ⟨.slowStart, .ackSlowStart, .dupAck⟩ }

/-- The call `cwnd->state.dupAck(cwnd)`. -/
def callDupAck (cwnd : Cwnd) : Cwnd :=
  match cwnd.state.dupAck with
  | .dupAck => dupAck cwnd
  | .dupAckFastRecov => dupAckFastRecov cwnd

/-- The call `cwnd->state.ack(cwnd, ackNum)`. -/
def callAck (cwnd : Cwnd) (ackNum : ℕ) : Cwnd :=
  match cwnd.state.ack with
  | .ackSlowStart => ackSlowStart cwnd
  | .ackCongAvoid => ackCongAvoid cwnd ackNum
  | .ackFastRecov => ackFastRecov cwnd

/-- `ackCwnd`. -/
def ackCwnd (cwnd : Cwnd) (ackNum : ℕ) : Cwnd :=
  if ackNum = cwnd.lastAck then callDupAck cwnd
  else { callAck cwnd ackNum with lastAck := ackNum }

/-- `confirmThreeDups`. -/
def confirmThreeDups (cwnd : Cwnd) : Cwnd × Bool :=
  if cwnd.state.state = .fastRecovRetrans then (toFastRecov cwnd, true) else (cwnd, false)

/-- `timeoutCwnd`. -/
def timeoutCwnd (cwnd : Cwnd) (ack : ℕ) : Cwnd :=
  let cwnd :=
    if ack ≠ cwnd.timeoutAck then halveWindow { cwnd with timeoutAck := ack } else cwnd
  toSlowStart { clearDup cwnd with window := 1 }

/-! ## The window inside a batch -/

/-- The window after `k` acks of a batch. -/
structure CwndOk (k : ℕ) (cwnd : Cwnd) : Prop where
  wide : cwnd.window < 2 ^ 64
  thresh_pos : 1 ≤ cwnd.ssthresh
  thresh_le : cwnd.ssthresh ≤ 2 ^ 63
  handlers : cwnd.state.state = .fastRecovRetrans →
    cwnd.state.ack = .ackFastRecov ∧ cwnd.state.dupAck = .dupAckFastRecov
  retrans : cwnd.state.state = .fastRecovRetrans →
    1 ≤ cwnd.window ∧ cwnd.window ≤ cwnd.ssthresh + 3 + k

section Batch

variable {k : ℕ} {cwnd : Cwnd}

theorem CwndOk.mono (h : CwndOk k cwnd) {k' : ℕ} (hk : k ≤ k') : CwndOk k' cwnd :=
  ⟨h.wide, h.thresh_pos, h.thresh_le, h.handlers, fun hs => by
    have := h.retrans hs
    omega⟩

/-- Outside `FAST_RECOV_RETRANS` only the size of `window` and `ssthresh` matters. -/
theorem CwndOk.of_ne (hne : cwnd.state.state ≠ .fastRecovRetrans) (hw : cwnd.window < 2 ^ 64)
    (h1 : 1 ≤ cwnd.ssthresh) (h2 : cwnd.ssthresh ≤ 2 ^ 63) : CwndOk k cwnd :=
  ⟨hw, h1, h2, fun hs => absurd hs hne, fun hs => absurd hs hne⟩

theorem halveWindow_ssthresh (cwnd : Cwnd) (h : cwnd.window < 2 ^ 64) :
    1 ≤ (halveWindow cwnd).ssthresh ∧ (halveWindow cwnd).ssthresh ≤ 2 ^ 63 := by
  unfold halveWindow
  simp only [Nat.shiftRight_eq_div_pow, pow_one]
  split <;> omega

theorem cwndOk_dupAck (h : CwndOk k cwnd) (hd : cwnd.state.dupAck = .dupAck) :
    CwndOk (k + 1) (dupAck cwnd) := by
  have hne : cwnd.state.state ≠ .fastRecovRetrans := fun hs => by
    have := (h.handlers hs).2
    rw [hd] at this
    exact absurd this (by decide)
  simp only [dupAck]
  split
  · obtain ⟨h1, h2⟩ := halveWindow_ssthresh { cwnd with dupAck := cwnd.dupAck + 1 } h.wide
    have hw : u64 ((halveWindow { cwnd with dupAck := cwnd.dupAck + 1 }).ssthresh + 3) =
        (halveWindow { cwnd with dupAck := cwnd.dupAck + 1 }).ssthresh + 3 :=
      u64_of_lt (by omega)
    refine ⟨u64_lt _, h1, h2, fun _ => ⟨rfl, rfl⟩, fun _ => ?_⟩
    simp only [toFastRecovRetrans, hw]
    omega
  · exact CwndOk.of_ne hne h.wide h.thresh_pos h.thresh_le

theorem cwndOk_dupAckFastRecov (h : CwndOk k cwnd) (hk : k < window) :
    CwndOk (k + 1) (dupAckFastRecov cwnd) := by
  refine ⟨u64_lt _, h.thresh_pos, h.thresh_le, h.handlers, fun hs => ?_⟩
  obtain ⟨h1, h2⟩ := h.retrans hs
  have h3 := h.thresh_le
  have hw : u64 (cwnd.window + 1) = cwnd.window + 1 := u64_of_lt (by unfold window at hk; omega)
  simp only [dupAckFastRecov, hw]
  omega

theorem cwndOk_callAck (h : CwndOk k cwnd) (ackNum : ℕ) : CwndOk k (callAck cwnd ackNum) := by
  have hne : cwnd.state.ack ≠ .ackFastRecov → cwnd.state.state ≠ .fastRecovRetrans := fun ha hs =>
    ha (h.handlers hs).1
  unfold callAck
  cases ha : cwnd.state.ack with
  | ackSlowStart =>
    have hs := hne (by rw [ha]; decide)
    simp only [ackSlowStart]
    split
    · exact CwndOk.of_ne (Label.noConfusion) (u64_lt _) h.thresh_pos h.thresh_le
    · exact CwndOk.of_ne hs (u64_lt _) h.thresh_pos h.thresh_le
  | ackCongAvoid =>
    have hs := hne (by rw [ha]; decide)
    simp only [ackCongAvoid]
    split
    · exact CwndOk.of_ne hs (u64_lt _) h.thresh_pos h.thresh_le
    · exact CwndOk.of_ne hs h.wide h.thresh_pos h.thresh_le
  | ackFastRecov =>
    have hw : cwnd.ssthresh < 2 ^ 64 := by
      have := h.thresh_le
      omega
    exact CwndOk.of_ne (Label.noConfusion) hw h.thresh_pos h.thresh_le

/-- **One ack keeps the window in bounds.** -/
theorem cwndOk_ackCwnd (h : CwndOk k cwnd) (hk : k < window) (ackNum : ℕ) :
    CwndOk (k + 1) (ackCwnd cwnd ackNum) := by
  unfold ackCwnd
  split
  · unfold callDupAck
    cases hd : cwnd.state.dupAck with
    | dupAck => exact cwndOk_dupAck h hd
    | dupAckFastRecov => exact cwndOk_dupAckFastRecov h hk
  · have h' := (cwndOk_callAck h ackNum).mono (Nat.le_succ k)
    exact ⟨h'.wide, h'.thresh_pos, h'.thresh_le, h'.handlers, h'.retrans⟩

theorem cwndOk_timeoutCwnd (h : CwndOk k cwnd) (ack : ℕ) : CwndOk 0 (timeoutCwnd cwnd ack) := by
  have hth : 1 ≤ (timeoutCwnd cwnd ack).ssthresh ∧ (timeoutCwnd cwnd ack).ssthresh ≤ 2 ^ 63 := by
    unfold timeoutCwnd
    split
    · exact halveWindow_ssthresh { cwnd with timeoutAck := ack } h.wide
    · exact ⟨h.thresh_pos, h.thresh_le⟩
  exact CwndOk.of_ne (Label.noConfusion) (by simp [timeoutCwnd, toSlowStart]) hth.1 hth.2

/-- **`confirmThreeDups`** takes the label back; if it says so, the window is not empty. -/
theorem cwndOk_confirmThreeDups (h : CwndOk k cwnd) :
    CwndOk 0 (confirmThreeDups cwnd).1 ∧
      (confirmThreeDups cwnd).1.state.state ≠ .fastRecovRetrans ∧
      ((confirmThreeDups cwnd).2 = true → 1 ≤ (confirmThreeDups cwnd).1.window) := by
  unfold confirmThreeDups
  split
  · rename_i hs
    exact ⟨CwndOk.of_ne (Label.noConfusion) h.wide h.thresh_pos h.thresh_le, Label.noConfusion,
      fun _ => (h.retrans hs).1⟩
  · rename_i hs
    exact ⟨CwndOk.of_ne hs h.wide h.thresh_pos h.thresh_le, hs, fun hf => absurd hf (by simp)⟩

theorem cwndOk_init : CwndOk 0 initCwnd :=
  CwndOk.of_ne (Label.noConfusion) (by decide) (by decide) (by decide)

end Batch

end NetworkingLearning.Transfer
