import NetworkingLearning.Machine.Runs
import NetworkingLearning.Transfer.Cwnd

/-!
# Runs of the congestion window (`adt.c:88-129`)

A sender changes its window through `ackCwnd`, `confirmThreeDups` and `timeoutCwnd` alone, in any
order and with any ack numbers (`CwndCall`). A run is a list of such calls from `initCwnd`.

The source decides what a call does by the two function pointers, not by the label. `Move` lists
what a call does in each of the four states once the handlers are those of the label (`Matched`),
and `move_callCwnd` says that the code does nothing else. The two invariants are then case analyses
of `Move`, without a look at the code.

* `Fits` says of a call that none of its additions wraps. It is not an assumption of the model,
  whose sums are modulo `2 ^ 64`, but a condition of the bounds.
* `Halves` says of a call that it comes to `__halveWindow`.

Results:
* `cwnd_inv`: the bounds of each state (`CwndInv`), in every run in which no addition wraps.
* `floor_iff`: `__halveWindow` falls back on `2` for a window of at most `2`, but a window of `3` is
  halved to `1`. A run keeps `ssthresh` at `2` or more exactly when no call of it halves a window of
  `3`.
-/

namespace NetworkingLearning.Transfer

open NetworkingLearning.Machine

/-! ## Calls -/

/-- A call of `ackCwnd`, `confirmThreeDups` or `timeoutCwnd`. -/
inductive CwndCall
  | ack (ackNum : ℕ)
  | confirm
  | timeout (ack : ℕ)
  deriving DecidableEq

/-- The window after a call. -/
def callCwnd (cwnd : Cwnd) : CwndCall → Cwnd
  | .ack ackNum => ackCwnd cwnd ackNum
  | .confirm => (confirmThreeDups cwnd).1
  | .timeout ack => timeoutCwnd cwnd ack

/-- The window after a list of calls. -/
def callsCwnd (cwnd : Cwnd) (calls : List CwndCall) : Cwnd := calls.foldl callCwnd cwnd

/-- `initCwnd` in memory that holds `a` where `ackThisRound` goes. -/
def freshCwnd (a : ℕ) : Cwnd := { initCwnd with ackThisRound := a }

/-- The handlers that the `__to` functions install for a label. -/
def handlersOf : Label → AckHandler × DupAckHandler
  | .slowStart => (.ackSlowStart, .dupAck)
  | .congestAvoid => (.ackCongAvoid, .dupAck)
  | .fastRecov => (.ackFastRecov, .dupAckFastRecov)
  | .fastRecovRetrans => (.ackFastRecov, .dupAckFastRecov)

/-- The installed handlers are those of the label. -/
def CState.Matched (s : CState) : Prop := (s.ack, s.dupAck) = handlersOf s.state

instance (s : CState) : Decidable s.Matched := inferInstanceAs (Decidable (_ = _))

/-- What `__halveWindow` makes of a window. -/
def halved (w : ℕ) : ℕ := if w > 2 then w >>> 1 else 2

/-- **The transitions**, handlers aside: what a call does in each state. -/
inductive Move (cwnd : Cwnd) : CwndCall → Cwnd → Prop
  | duplicate (hs : cwnd.state.state = .slowStart ∨ cwnd.state.state = .congestAvoid)
      (hd : cwnd.dupAck + 1 < 3) :
      Move cwnd (.ack cwnd.lastAck) { cwnd with dupAck := cwnd.dupAck + 1 }
  | thirdDuplicate (hs : cwnd.state.state = .slowStart ∨ cwnd.state.state = .congestAvoid)
      (hd : 3 ≤ cwnd.dupAck + 1) :
      Move cwnd (.ack cwnd.lastAck)
        { cwnd with
          dupAck := cwnd.dupAck + 1
          ssthresh := halved cwnd.window
          window := u64 (halved cwnd.window + 3)
          state := ⟨.fastRecovRetrans, .ackFastRecov, .dupAckFastRecov⟩ }
  | inflate (hs : cwnd.state.state = .fastRecov ∨ cwnd.state.state = .fastRecovRetrans) :
      Move cwnd (.ack cwnd.lastAck) { cwnd with window := u64 (cwnd.window + 1) }
  | grow (n : ℕ) (hn : n ≠ cwnd.lastAck) (hs : cwnd.state.state = .slowStart)
      (hw : u64 (cwnd.window + 1) < cwnd.ssthresh) :
      Move cwnd (.ack n)
        { cwnd with window := u64 (cwnd.window + 1), dupAck := 0, lastAck := n }
  | leaveSlowStart (n : ℕ) (hn : n ≠ cwnd.lastAck) (hs : cwnd.state.state = .slowStart)
      (hw : cwnd.ssthresh ≤ u64 (cwnd.window + 1)) :
      Move cwnd (.ack n)
        { cwnd with
          window := u64 (cwnd.window + 1)
          dupAck := 0
          lastAck := n
          ackThisRound := 0
          state := ⟨.congestAvoid, .ackCongAvoid, .dupAck⟩ }
  | collect (n : ℕ) (hn : n ≠ cwnd.lastAck) (hs : cwnd.state.state = .congestAvoid)
      (hw : u64 (cwnd.ackThisRound + sub32 n cwnd.lastAck) < cwnd.window) :
      Move cwnd (.ack n)
        { cwnd with
          ackThisRound := u64 (cwnd.ackThisRound + sub32 n cwnd.lastAck)
          dupAck := 0
          lastAck := n }
  | round (n : ℕ) (hn : n ≠ cwnd.lastAck) (hs : cwnd.state.state = .congestAvoid)
      (hw : cwnd.window ≤ u64 (cwnd.ackThisRound + sub32 n cwnd.lastAck)) :
      Move cwnd (.ack n)
        { cwnd with
          window := u64 (cwnd.window + 1)
          ackThisRound := 0
          dupAck := 0
          lastAck := n }
  | recover (n : ℕ) (hn : n ≠ cwnd.lastAck)
      (hs : cwnd.state.state = .fastRecov ∨ cwnd.state.state = .fastRecovRetrans) :
      Move cwnd (.ack n)
        { cwnd with
          window := cwnd.ssthresh
          dupAck := 0
          lastAck := n
          ackThisRound := 0
          state := ⟨.congestAvoid, .ackCongAvoid, .dupAck⟩ }
  | confirm (hs : cwnd.state.state = .fastRecovRetrans) :
      Move cwnd .confirm { cwnd with state := ⟨.fastRecov, cwnd.state.ack, cwnd.state.dupAck⟩ }
  | nothing (hs : cwnd.state.state ≠ .fastRecovRetrans) : Move cwnd .confirm cwnd
  | timeout (n : ℕ) (hn : n ≠ cwnd.timeoutAck) :
      Move cwnd (.timeout n)
        { cwnd with
          timeoutAck := n
          ssthresh := halved cwnd.window
          dupAck := 0
          window := 1
          state := ⟨.slowStart, .ackSlowStart, .dupAck⟩ }
  | sameTimeout (n : ℕ) (hn : n = cwnd.timeoutAck) :
      Move cwnd (.timeout n)
        { cwnd with
          dupAck := 0
          window := 1
          state := ⟨.slowStart, .ackSlowStart, .dupAck⟩ }

section Moves

variable {cwnd cwnd' : Cwnd} {call : CwndCall}

/-- The label says which handlers are installed, and the handlers say which labels can be. -/
theorem matched_cases (h : cwnd.state.Matched) :
    (cwnd.state.state = .slowStart ∧ cwnd.state.ack = .ackSlowStart ∧
        cwnd.state.dupAck = .dupAck) ∨
      (cwnd.state.state = .congestAvoid ∧ cwnd.state.ack = .ackCongAvoid ∧
        cwnd.state.dupAck = .dupAck) ∨
      ((cwnd.state.state = .fastRecov ∨ cwnd.state.state = .fastRecovRetrans) ∧
        cwnd.state.ack = .ackFastRecov ∧ cwnd.state.dupAck = .dupAckFastRecov) := by
  obtain ⟨hA, hD⟩ := Prod.mk.inj h
  rw [hA, hD]
  cases cwnd.state.state <;> simp

theorem move_dupAck (hs : cwnd.state.state = .slowStart ∨ cwnd.state.state = .congestAvoid) :
    Move cwnd (.ack cwnd.lastAck) (dupAck cwnd) := by
  simp only [dupAck]
  split
  · rename_i h3
    exact Move.thirdDuplicate hs h3
  · rename_i h3
    exact Move.duplicate hs (not_le.mp h3)

/-- An ack with a new number goes to the `ack` handler. -/
theorem move_callAck (h : cwnd.state.Matched) {n : ℕ} (hn : n ≠ cwnd.lastAck) :
    Move cwnd (.ack n) { callAck cwnd n with lastAck := n } := by
  obtain ⟨hs, hA, -⟩ | ⟨hs, hA, -⟩ | ⟨hs, hA, -⟩ := matched_cases h
  · simp only [callAck, hA, ackSlowStart]
    split
    · rename_i hw
      exact Move.leaveSlowStart n hn hs hw
    · rename_i hw
      exact Move.grow n hn hs (not_le.mp hw)
  · simp only [callAck, hA, ackCongAvoid]
    split
    · rename_i hw
      exact Move.round n hn hs hw
    · rename_i hw
      exact Move.collect n hn hs (not_le.mp hw)
  · simp only [callAck, hA]
    exact Move.recover n hn hs

/-- **The code makes only these transitions.** -/
theorem move_callCwnd (h : cwnd.state.Matched) (call : CwndCall) :
    Move cwnd call (callCwnd cwnd call) := by
  cases call with
  | ack n =>
    by_cases hn : n = cwnd.lastAck
    · subst hn
      simp only [callCwnd, ackCwnd, if_pos, callDupAck]
      obtain ⟨hs, -, hD⟩ | ⟨hs, -, hD⟩ | ⟨hs, -, hD⟩ := matched_cases h
      · rw [hD]
        exact move_dupAck (.inl hs)
      · rw [hD]
        exact move_dupAck (.inr hs)
      · rw [hD]
        exact Move.inflate hs
    · simp only [callCwnd, ackCwnd, if_neg hn]
      exact move_callAck h hn
  | confirm =>
    simp only [callCwnd, confirmThreeDups]
    split
    · rename_i hs
      exact Move.confirm hs
    · rename_i hs
      exact Move.nothing hs
  | timeout n =>
    by_cases hn : n = cwnd.timeoutAck
    · simp only [callCwnd, timeoutCwnd, hn, ne_eq, not_true_eq_false, if_false]
      exact hn ▸ Move.sameTimeout n hn
    · simp only [callCwnd, timeoutCwnd, ne_eq, hn, not_false_eq_true, if_true]
      exact Move.timeout n hn

/-- A transition leaves the handlers of the label it enters. -/
theorem Move.matched (hm : Move cwnd call cwnd') (h : cwnd.state.Matched) :
    cwnd'.state.Matched := by
  cases hm with
  | duplicate | inflate | grow | collect | round | nothing => exact h
  | thirdDuplicate | leaveSlowStart | recover | timeout | sameTimeout => rfl
  | confirm hs =>
    unfold CState.Matched at h ⊢
    rw [hs] at h
    exact h

end Moves

/-! ## The bounds of each state -/

/-- The `size_t` additions a call makes do not wrap. -/
def Fits (cwnd : Cwnd) : CwndCall → Prop
  | .ack n =>
    if n = cwnd.lastAck then
      cwnd.state.dupAck = .dupAckFastRecov → cwnd.window + 1 < 2 ^ 64
    else
      (cwnd.state.ack = .ackSlowStart → cwnd.window + 1 < 2 ^ 64) ∧
        (cwnd.state.ack = .ackCongAvoid →
          cwnd.ackThisRound + sub32 n cwnd.lastAck < 2 ^ 64 ∧
            (cwnd.window ≤ cwnd.ackThisRound + sub32 n cwnd.lastAck → cwnd.window + 1 < 2 ^ 64))
  | .confirm => True
  | .timeout _ => True

instance (cwnd : Cwnd) : ∀ call, Decidable (Fits cwnd call)
  | .ack _ => inferInstanceAs (Decidable (ite _ _ _))
  | .confirm => inferInstanceAs (Decidable True)
  | .timeout _ => inferInstanceAs (Decidable True)

/-- What holds of a window between two calls. -/
structure CwndInv (cwnd : Cwnd) : Prop where
  window_pos : 1 ≤ cwnd.window
  ssthresh_pos : 1 ≤ cwnd.ssthresh
  slowStart : cwnd.state.state = .slowStart → cwnd.window ≤ cwnd.ssthresh
  congestAvoid : cwnd.state.state = .congestAvoid →
    cwnd.ssthresh ≤ cwnd.window ∧ cwnd.ackThisRound < cwnd.window
  fastRecov : cwnd.state.state = .fastRecov ∨ cwnd.state.state = .fastRecovRetrans →
    cwnd.ssthresh + 3 ≤ cwnd.window ∧ cwnd.dupAck = 3
  counting : cwnd.state.state = .slowStart ∨ cwnd.state.state = .congestAvoid →
    0 ≤ cwnd.dupAck ∧ cwnd.dupAck ≤ 2
  matched : cwnd.state.Matched
  window_lt : cwnd.window < 2 ^ 64

section Bounds

variable {cwnd cwnd' : Cwnd} {call : CwndCall}

theorem halved_pos (w : ℕ) : 1 ≤ halved w := by
  unfold halved
  split
  · rw [Nat.shiftRight_eq_div_pow]
    omega
  · decide

theorem halved_lt {w : ℕ} (h : w < 2 ^ 64) : halved w < 2 ^ 63 := by
  unfold halved
  split
  · rw [Nat.shiftRight_eq_div_pow]
    omega
  · decide

/-- The additions of a transition are exact. -/
theorem Fits.handlers (h : cwnd.state.Matched) {n : ℕ} (hf : Fits cwnd (.ack n)) :
    (n = cwnd.lastAck →
        cwnd.state.state = .fastRecov ∨ cwnd.state.state = .fastRecovRetrans →
        u64 (cwnd.window + 1) = cwnd.window + 1) ∧
      (n ≠ cwnd.lastAck → cwnd.state.state = .slowStart →
        u64 (cwnd.window + 1) = cwnd.window + 1) ∧
      (n ≠ cwnd.lastAck → cwnd.state.state = .congestAvoid →
        u64 (cwnd.ackThisRound + sub32 n cwnd.lastAck) =
            cwnd.ackThisRound + sub32 n cwnd.lastAck ∧
          (cwnd.window ≤ cwnd.ackThisRound + sub32 n cwnd.lastAck →
            u64 (cwnd.window + 1) = cwnd.window + 1)) := by
  obtain ⟨hA, hD⟩ := Prod.mk.inj h
  refine ⟨fun hn hs => ?_, fun hn hs => ?_, fun hn hs => ?_⟩
  · rw [Fits, if_pos hn] at hf
    refine u64_of_lt (hf ?_)
    obtain hs | hs := hs <;> rw [hD, hs]
  · rw [Fits, if_neg hn] at hf
    exact u64_of_lt (hf.1 (by rw [hA, hs]))
  · rw [Fits, if_neg hn] at hf
    obtain ⟨h1, h2⟩ := hf.2 (by rw [hA, hs])
    exact ⟨u64_of_lt h1, fun hw => u64_of_lt (h2 hw)⟩

/-- The states that count duplicates and those that recover from three. -/
theorem not_recovering {l : Label} (h : l = .slowStart ∨ l = .congestAvoid) :
    ¬ (l = .fastRecov ∨ l = .fastRecovRetrans) := by
  obtain rfl | rfl := h <;> decide

theorem counting_zero : (0 : ℤ) ≤ 0 ∧ (0 : ℤ) ≤ 2 := by decide

theorem cwndInv_fresh (a : ℕ) : CwndInv (freshCwnd a) :=
  ⟨Nat.le_add_left 1 3, Nat.le_add_left 1 4095, fun _ => Nat.le_add_left 4 4092, nofun,
    fun hs => absurd hs (not_recovering (.inl rfl)), fun _ => counting_zero, rfl,
    Nat.lt_of_sub_eq_succ rfl⟩

/-- **Every transition keeps the bounds.** -/
theorem CwndInv.move (h : CwndInv cwnd) (hm : Move cwnd call cwnd') (hf : Fits cwnd call) :
    CwndInv cwnd' := by
  have hmatched := hm.matched h.matched
  cases hm with
  | duplicate hs hd =>
    have hc := h.counting hs
    refine ⟨h.window_pos, h.ssthresh_pos, h.slowStart, h.congestAvoid, fun hs' => ?_,
      fun _ => ?_, hmatched, h.window_lt⟩
    · rcases hs with hs | hs <;> simp [hs] at hs'
    · simp only
      omega
  | thirdDuplicate hs hd =>
    have hc := h.counting hs
    have hlt := halved_lt h.window_lt
    have hw : u64 (halved cwnd.window + 3) = halved cwnd.window + 3 := u64_of_lt (by omega)
    exact ⟨by simp only [hw]; omega, halved_pos _, nofun, nofun,
      fun _ => ⟨hw.ge, by simp only; omega⟩, fun hs' => absurd (.inr rfl) (not_recovering hs'),
      hmatched, u64_lt _⟩
  | inflate hs =>
    have hw := (hf.handlers h.matched).1 rfl hs
    obtain ⟨h3, hd⟩ := h.fastRecov hs
    refine ⟨by simp only [hw]; omega, h.ssthresh_pos, fun hs' => ?_, fun hs' => ?_,
      fun _ => ⟨by simp only [hw]; omega, hd⟩, fun hs' => ?_, hmatched, u64_lt _⟩
    all_goals rcases hs with hs | hs <;> simp [hs] at hs'
  | grow n hn hs hlt =>
    have hw := (hf.handlers h.matched).2.1 hn hs
    refine ⟨by simp only [hw]; omega, h.ssthresh_pos, fun _ => hlt.le, fun hs' => ?_,
      fun hs' => ?_, fun _ => counting_zero, hmatched, u64_lt _⟩
    all_goals simp [hs] at hs'
  | leaveSlowStart n hn hs hle =>
    have hw := (hf.handlers h.matched).2.1 hn hs
    exact ⟨by simp only [hw]; omega, h.ssthresh_pos, nofun,
      fun _ => ⟨hle, by simp only [hw]; omega⟩,
      fun hs' => absurd hs' (not_recovering (.inr rfl)), fun _ => counting_zero, hmatched,
      u64_lt _⟩
  | collect n hn hs hlt =>
    refine ⟨h.window_pos, h.ssthresh_pos, h.slowStart, fun _ => ⟨(h.congestAvoid hs).1, hlt⟩,
      fun hs' => ?_, fun _ => counting_zero, hmatched, h.window_lt⟩
    simp [hs] at hs'
  | round n hn hs hle =>
    obtain ⟨hr, hw⟩ := (hf.handlers h.matched).2.2 hn hs
    rw [hr] at hle
    replace hw := hw hle
    have hth := (h.congestAvoid hs).1
    refine ⟨by simp only [hw]; omega, h.ssthresh_pos, fun hs' => ?_,
      fun _ => ⟨by simp only [hw]; omega, by simp only [hw]; omega⟩, fun hs' => ?_,
      fun _ => counting_zero, hmatched, u64_lt _⟩
    all_goals simp [hs] at hs'
  | recover n hn hs =>
    have hth := h.ssthresh_pos
    have hlt := h.window_lt
    have hle := (h.fastRecov hs).1
    exact ⟨hth, hth, nofun, fun _ => ⟨le_rfl, hth⟩,
      fun hs' => absurd hs' (not_recovering (.inr rfl)), fun _ => counting_zero, hmatched,
      by simp only; omega⟩
  | confirm hs =>
    exact ⟨h.window_pos, h.ssthresh_pos, nofun, nofun, fun _ => h.fastRecov (.inr hs),
      fun hs' => absurd (.inl rfl) (not_recovering hs'), hmatched, h.window_lt⟩
  | nothing => exact h
  | timeout n hn =>
    exact ⟨le_rfl, halved_pos _, fun _ => halved_pos _, nofun,
      fun hs' => absurd hs' (not_recovering (.inl rfl)), fun _ => counting_zero, hmatched,
      Nat.one_lt_two_pow (by decide)⟩
  | sameTimeout n hn =>
    exact ⟨le_rfl, h.ssthresh_pos, fun _ => h.ssthresh_pos, nofun,
      fun hs' => absurd hs' (not_recovering (.inl rfl)), fun _ => counting_zero, hmatched,
      Nat.one_lt_two_pow (by decide)⟩

/-- **The bounds of each state hold in every run without wrapping.** -/
theorem cwnd_inv {a : ℕ} (h : Runs (fun cwnd => cwnd = freshCwnd a)
    (fun cwnd cwnd' => ∃ call, Fits cwnd call ∧ cwnd' = callCwnd cwnd call) cwnd) :
    CwndInv cwnd := by
  refine h.invariant ?_ ?_
  · rintro _ rfl
    exact cwndInv_fresh a
  · rintro cwnd _ hi ⟨call, hf, rfl⟩
    exact hi.move (move_callCwnd hi.matched call) hf

theorem cwnd_inv_first_duplicate :
    CwndInv (callCwnd (callCwnd (freshCwnd 7) (.ack 9)) (.ack 9)) :=
  cwnd_inv (Runs.next (Runs.next (Runs.start rfl) ⟨.ack 9, by decide, rfl⟩)
    ⟨.ack 9, by decide, rfl⟩)

end Bounds

/-! ## The floor of the threshold -/

/-- A call that goes through `__halveWindow`: the third duplicate, or a timeout of a new ack. -/
def Halves (cwnd : Cwnd) : CwndCall → Prop
  | .ack n => n = cwnd.lastAck ∧ cwnd.state.dupAck = .dupAck ∧ 3 ≤ cwnd.dupAck + 1
  | .confirm => False
  | .timeout n => n ≠ cwnd.timeoutAck

/-- The threshold is at its floor or above, and slow start stays below it. -/
def FloorOk (cwnd : Cwnd) : Prop :=
  2 ≤ cwnd.ssthresh ∧ (cwnd.state.state = .slowStart → cwnd.window < cwnd.ssthresh)

instance (cwnd : Cwnd) : Decidable (FloorOk cwnd) := inferInstanceAs (Decidable (_ ∧ _))

section Floor

variable {cwnd cwnd' : Cwnd} {call : CwndCall} {calls : List CwndCall} {k : ℕ}

/-- `3` is the only window that is halved to less than `2`. -/
theorem halved_ge_iff (w : ℕ) : 2 ≤ halved w ↔ w ≠ 3 := by
  unfold halved
  split
  · rw [Nat.shiftRight_eq_div_pow]
    omega
  · omega

theorem Move.ssthresh_of_halves (hm : Move cwnd call cwnd') (h : cwnd.state.Matched)
    (hh : Halves cwnd call) : cwnd'.ssthresh = halved cwnd.window := by
  have hD := (Prod.mk.inj h).2
  cases hm with
  | duplicate hs hd => exact absurd hh.2.2 (not_le.mpr hd)
  | thirdDuplicate | timeout => rfl
  | inflate hs =>
    have hd := hh.2.1
    rw [hD] at hd
    obtain hs | hs := hs <;> rw [hs] at hd <;> cases hd
  | grow n hn | leaveSlowStart n hn | collect n hn | round n hn | recover n hn =>
    exact absurd hh.1 hn
  | confirm | nothing => exact hh.elim
  | sameTimeout n hn => exact absurd hn hh

/-- **Every transition keeps the floor**, unless it halves a window of `3`. -/
theorem Move.floor (hm : Move cwnd call cwnd') (hmatched : cwnd.state.Matched)
    (h : FloorOk cwnd) (h3 : Halves cwnd call → cwnd.window ≠ 3) : FloorOk cwnd' := by
  have hD := (Prod.mk.inj hmatched).2
  cases hm with
  | duplicate => exact h
  | thirdDuplicate hs hd =>
    have hh : Halves cwnd (.ack cwnd.lastAck) := ⟨rfl, by
      rw [hD]
      obtain hs | hs := hs <;> rw [hs], hd⟩
    exact ⟨(halved_ge_iff _).mpr (h3 hh), nofun⟩
  | inflate hs =>
    refine ⟨h.1, fun hs' => ?_⟩
    exact absurd hs (not_recovering (.inl hs'))
  | grow n hn hs hw => exact ⟨h.1, fun _ => hw⟩
  | leaveSlowStart | recover => exact ⟨h.1, nofun⟩
  | collect n hn hs => exact ⟨h.1, fun hs' => h.2 hs'⟩
  | round n hn hs =>
    refine ⟨h.1, fun hs' => ?_⟩
    rw [show cwnd.state.state = .slowStart from hs'] at hs
    cases hs
  | confirm hs => exact ⟨h.1, nofun⟩
  | nothing => exact h
  | timeout n hn =>
    have h2 := (halved_ge_iff cwnd.window).mpr (h3 hn)
    exact ⟨h2, fun _ => h2⟩
  | sameTimeout => exact ⟨h.1, fun _ => h.1⟩

theorem callsCwnd_succ (hk : k < calls.length) :
    callsCwnd cwnd (calls.take (k + 1)) = callCwnd (callsCwnd cwnd (calls.take k)) calls[k] := by
  simp only [callsCwnd, List.take_succ_eq_append_getElem hk, List.foldl_append, List.foldl_cons,
    List.foldl_nil]

theorem matched_callsCwnd (h : cwnd.state.Matched) (calls : List CwndCall) :
    (callsCwnd cwnd calls).state.Matched := by
  induction calls generalizing cwnd with
  | nil => exact h
  | cons call calls ih => exact ih ((move_callCwnd h call).matched h)

/-- **The threshold keeps its floor of `2`** through a run exactly if no call of the run halves a
window of `3`. -/
theorem floor_iff (a : ℕ) (calls : List CwndCall) :
    (∀ k ≤ calls.length, FloorOk (callsCwnd (freshCwnd a) (calls.take k))) ↔
      ∀ (k : ℕ) (hk : k < calls.length),
        Halves (callsCwnd (freshCwnd a) (calls.take k)) calls[k] →
          (callsCwnd (freshCwnd a) (calls.take k)).window ≠ 3 := by
  have hmatched : ∀ k, (callsCwnd (freshCwnd a) (calls.take k)).state.Matched := fun k =>
    @matched_callsCwnd (freshCwnd a) rfl _
  constructor
  · intro hok k hk hh h3
    have hle := (hok (k + 1) hk).1
    rw [callsCwnd_succ hk, (move_callCwnd (hmatched k) calls[k]).ssthresh_of_halves (hmatched k) hh,
      halved_ge_iff] at hle
    exact hle h3
  · intro h3 k hk
    induction k with
    | zero => exact ⟨Nat.le_add_left 2 4094, fun _ => Nat.le_add_left 5 4091⟩
    | succ k ih =>
      rw [callsCwnd_succ hk]
      exact (move_callCwnd (hmatched k) calls[k]).floor (hmatched k) (ih (Nat.le_of_succ_le hk))
        (h3 k hk)

/-- A timeout at once, two acks that lead to a window of `3`, and a second timeout. -/
theorem floor_broken :
    ¬ FloorOk (callsCwnd (freshCwnd 0) [.timeout 5, .ack 1, .ack 3, .timeout 6]) := by
  decide

end Floor

end NetworkingLearning.Transfer
