import NetworkingLearning.Transfer.SenderRuns

/-!
# Batches of acks (`sender_main.c:85-158`, `adt.c:111-118`)

How many acks `recvAll` has read when it stops is a matter of timing. A batch that is cut in two is
acked and merged twice, with `confirmThreeDups` in between. Does that make a difference?

`confirmThreeDups` changes the label of the window alone, from `FAST_RECOV_RETRANS` to `FAST_RECOV`,
and no ack reads the label: it sets one or leaves the one it finds. So two windows that
`confirmThreeDups` makes equal (`SameAcked`) stay so under any acks, and at the end of both ways the
label is the same too. What is compared is `sendBase`, `recvFin` and the whole window. `retrans` and
the timer are not: `merge` sets them once in one way and twice in the other.

Results:
* `ackCwnd_toFastRecov`: an ack sets the label, or leaves it.
* `batches_joined`: two batches in a row have the effect of one.
-/

namespace NetworkingLearning.Transfer

section Label

variable {cwnd cwnd' : Cwnd}

/-- **An ack does not read the label.** -/
theorem ackCwnd_toFastRecov (cwnd : Cwnd) (ackNum : ℕ) :
    ackCwnd (toFastRecov cwnd) ackNum = ackCwnd cwnd ackNum ∨
      (ackCwnd cwnd ackNum).state.state = cwnd.state.state ∧
        ackCwnd (toFastRecov cwnd) ackNum = toFastRecov (ackCwnd cwnd ackNum) := by
  obtain ⟨w, round, ssthresh, timeoutAck, lastAck, dup, state, ack, dupHandler⟩ := cwnd
  by_cases hlast : ackNum = lastAck
  · cases dupHandler with
    | dupAck =>
      by_cases hthree : dup + 1 ≥ 3
      · left
        simp [ackCwnd, toFastRecov, callDupAck, dupAck, hlast, hthree, halveWindow,
          toFastRecovRetrans]
      · right
        simp [ackCwnd, toFastRecov, callDupAck, dupAck, hlast, hthree]
    | dupAckFastRecov =>
      right
      simp [ackCwnd, toFastRecov, callDupAck, dupAckFastRecov, hlast]
  · cases ack with
    | ackSlowStart =>
      by_cases hleave : Machine.u64 (w + 1) ≥ ssthresh
      · left
        simp [ackCwnd, toFastRecov, callAck, ackSlowStart, clearDup, hlast, hleave, toCongAvoid]
      · right
        simp [ackCwnd, toFastRecov, callAck, ackSlowStart, clearDup, hlast, hleave]
    | ackCongAvoid =>
      right
      by_cases hround : Machine.u64 (round + Machine.sub32 ackNum lastAck) ≥ w
      · simp [ackCwnd, toFastRecov, callAck, ackCongAvoid, clearDup, hlast, hround]
      · simp [ackCwnd, toFastRecov, callAck, ackCongAvoid, clearDup, hlast, hround]
    | ackFastRecov =>
      left
      simp [ackCwnd, toFastRecov, callAck, ackFastRecov, clearDup, hlast, toCongAvoid]

theorem confirmThreeDups_of_eq (h : cwnd.state.state = .fastRecovRetrans) :
    (confirmThreeDups cwnd).1 = toFastRecov cwnd := by
  rw [confirmThreeDups, if_pos h]

theorem confirmThreeDups_of_ne (h : cwnd.state.state ≠ .fastRecovRetrans) :
    (confirmThreeDups cwnd).1 = cwnd := by
  rw [confirmThreeDups, if_neg h]

/-- `confirmThreeDups` has nothing to do a second time. -/
@[simp] theorem confirmThreeDups_toFastRecov (cwnd : Cwnd) :
    (confirmThreeDups (toFastRecov cwnd)).1 = toFastRecov cwnd :=
  confirmThreeDups_of_ne Label.noConfusion

@[simp] theorem confirmThreeDups_twice (cwnd : Cwnd) :
    (confirmThreeDups (confirmThreeDups cwnd).1).1 = (confirmThreeDups cwnd).1 := by
  by_cases h : cwnd.state.state = .fastRecovRetrans
  · rw [confirmThreeDups_of_eq h, confirmThreeDups_toFastRecov]
  · rw [confirmThreeDups_of_ne h, confirmThreeDups_of_ne h]

/-- **`confirmThreeDups` before an ack** makes no difference to the one after it. -/
theorem confirmThreeDups_ackCwnd (cwnd : Cwnd) (ackNum : ℕ) :
    (confirmThreeDups (ackCwnd (confirmThreeDups cwnd).1 ackNum)).1 =
      (confirmThreeDups (ackCwnd cwnd ackNum)).1 := by
  by_cases h : cwnd.state.state = .fastRecovRetrans
  · rw [confirmThreeDups_of_eq h]
    rcases ackCwnd_toFastRecov cwnd ackNum with heq | ⟨hlabel, heq⟩
    · rw [heq]
    · rw [heq, confirmThreeDups_toFastRecov, confirmThreeDups_of_eq (hlabel.trans h)]
  · rw [confirmThreeDups_of_ne h]

end Label

/-! ## States that acks do not tell apart -/

/-- The variables of `ackAll` agree, but for a label that `confirmThreeDups` takes back. -/
structure SameAcked (st st' : SenderStat × ℕ) : Prop where
  base : st.2 = st'.2
  recvFin : st.1.recvFin = st'.1.recvFin
  cwnd : (confirmThreeDups st.1.cwnd).1 = (confirmThreeDups st'.1.cwnd).1

section Acks

variable {st st' : SenderStat × ℕ}

/-- **One ack.** -/
theorem SameAcked.ackStep (h : SameAcked st st') (pkt : AckPacket) :
    SameAcked (ackStep st pkt) (ackStep st' pkt) := by
  obtain ⟨hbase, hfin, hcwnd⟩ := h
  by_cases hack : pkt.ackNum ≥ st.2
  · rw [Transfer.ackStep, if_pos hack, Transfer.ackStep, if_pos (hbase ▸ hack)]
    refine ⟨rfl, congrArg (· ||| pkt.finByte) hfin, ?_⟩
    calc (confirmThreeDups (ackCwnd st.1.cwnd pkt.ackNum)).1
        = (confirmThreeDups (ackCwnd (confirmThreeDups st.1.cwnd).1 pkt.ackNum)).1 :=
          (confirmThreeDups_ackCwnd _ _).symm
      _ = (confirmThreeDups (ackCwnd (confirmThreeDups st'.1.cwnd).1 pkt.ackNum)).1 := by rw [hcwnd]
      _ = (confirmThreeDups (ackCwnd st'.1.cwnd pkt.ackNum)).1 := confirmThreeDups_ackCwnd _ _
  · rw [Transfer.ackStep, if_neg hack, Transfer.ackStep, if_neg (hbase ▸ hack)]
    exact ⟨hbase, hfin, hcwnd⟩

/-- All acks of a batch. -/
theorem SameAcked.foldl (h : SameAcked st st') (acks : List AckPacket) :
    SameAcked (acks.foldl Transfer.ackStep st) (acks.foldl Transfer.ackStep st') := by
  induction acks generalizing st st' with
  | nil => exact h
  | cons pkt acks ih => exact ih (h.ackStep pkt)

end Acks

/-! ## Merging -/

/-- A batch is acked and merged, and there is no timeout. -/
def ackMerged (acks : List AckPacket) (stat : SenderStat) : SenderStat :=
  merge (ackAll acks stat).1 (ackAll acks stat).2 false

theorem merge_recvFin (stat : SenderStat) (pending : DiffStat) (hasTimeout : Bool) :
    (merge stat pending hasTimeout).recvFin = stat.recvFin := by
  cases hthree : pending.threeDups with
  | true => rw [merge_threeDups hthree]
  | false =>
    by_cases hlt : stat.sendBase < pending.sendBase
    · rw [merge_advanced hthree hlt]
    · cases hasTimeout with
      | true => rw [merge_timeout hthree hlt rfl]
      | false => rw [merge_idle hthree hlt rfl]

section Merged

variable {st st' : SenderStat × ℕ} {stat stat' : SenderStat}

/-- What `ackAll` has collected. -/
theorem foldl_ackStep_base (acks : List AckPacket) (stat : SenderStat) :
    stat.sendBase ≤ (acks.foldl ackStep (stat, stat.sendBase)).2 ∧
      (acks.foldl ackStep (stat, stat.sendBase)).1.sendBase = stat.sendBase := by
  obtain ⟨recvFin, h⟩ := foldl_ackStep acks stat stat.sendBase
  rw [h]
  exact ⟨le_maxAck acks stat.sendBase, rfl⟩

/-- **A batch that is merged** leaves what `ackAll` has collected. -/
theorem ackMerged_spec (acks : List AckPacket) (stat : SenderStat) :
    (ackMerged acks stat).sendBase = (acks.foldl ackStep (stat, stat.sendBase)).2 ∧
      (ackMerged acks stat).recvFin = (acks.foldl ackStep (stat, stat.sendBase)).1.recvFin ∧
      (ackMerged acks stat).cwnd =
        (confirmThreeDups (acks.foldl ackStep (stat, stat.sendBase)).1.cwnd).1 := by
  obtain ⟨hle, hbase⟩ := foldl_ackStep_base acks stat
  obtain ⟨hmax, -, -, hcwnd⟩ := merge_frame (ackAll acks stat).1 (ackAll acks stat).2 false
  refine ⟨?_, merge_recvFin _ _ _, hcwnd rfl⟩
  rw [ackMerged, hmax]
  simp only [ackAll, hbase]
  exact max_eq_right hle

/-- After a merge the acks that follow are taken as they would have been in the same batch. -/
theorem sameAcked_ackMerged (acks : List AckPacket) (stat : SenderStat) :
    SameAcked (ackMerged acks stat, (ackMerged acks stat).sendBase)
      (acks.foldl ackStep (stat, stat.sendBase)) := by
  obtain ⟨hbase, hfin, hcwnd⟩ := ackMerged_spec acks stat
  refine ⟨hbase, hfin, ?_⟩
  simp only [hcwnd]
  exact confirmThreeDups_twice _

end Merged

/-- **Two batches in a row have the effect of one**: from every state of the sender, and for all
acks, `sendBase`, `recvFin` and the congestion window come out the same. -/
theorem batches_joined (stat : SenderStat) (l₁ l₂ : List AckPacket) :
    (ackMerged (l₁ ++ l₂) stat).sendBase = (ackMerged l₂ (ackMerged l₁ stat)).sendBase ∧
      (ackMerged (l₁ ++ l₂) stat).recvFin = (ackMerged l₂ (ackMerged l₁ stat)).recvFin ∧
      (ackMerged (l₁ ++ l₂) stat).cwnd = (ackMerged l₂ (ackMerged l₁ stat)).cwnd := by
  have hsame := (sameAcked_ackMerged l₁ stat).foldl l₂
  obtain ⟨hbase, hfin, hcwnd⟩ := ackMerged_spec (l₁ ++ l₂) stat
  obtain ⟨hbase', hfin', hcwnd'⟩ := ackMerged_spec l₂ (ackMerged l₁ stat)
  rw [List.foldl_append] at hbase hfin hcwnd
  exact ⟨hbase.trans (hsame.base.symm.trans hbase'.symm),
    hfin.trans (hsame.recvFin.symm.trans hfin'.symm),
    hcwnd.trans (hsame.cwnd.symm.trans hcwnd'.symm)⟩

/-- The third duplicate ends the first batch, and the second one leaves fast recovery. -/
example : (ackMerged [⟨0, 1, 0⟩] (ackMerged [⟨0, 0, 0⟩, ⟨0, 0, 0⟩, ⟨0, 0, 0⟩, ⟨0, 0, 0⟩]
    (initSenderStat 2888))).cwnd.state.state = .congestAvoid := by decide

end NetworkingLearning.Transfer
