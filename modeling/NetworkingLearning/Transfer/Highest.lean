import Mathlib.Order.Bounds.Basic
import NetworkingLearning.Transfer.SenderRuns

/-!
# The furthest packet sent (`adt.c:149-179`)

`highestSeq` is meant for the largest sequence number sent. `updateNextSeq` raises it to every
number that is greater (`adt.c:175-177`); it starts at `-1`, which is the greatest `uint32_t`
(`adt.c:151`), so that no number is. Only `__getNextSeq` gets it, and does not read it.

* A run is any sequence of batches of acks and timeouts (`process`) and of calls of `sendpkts`. The
  acks are whatever comes: nothing is asked of them here, so the runs of the event loop are among
  these runs.

Results:
* `highestOk_runs`: the field is the maximum of its first value and of what was sent.
* `highestSeq_not_greatest`: so it is never the largest number sent.
-/

namespace NetworkingLearning.Transfer

open NetworkingLearning.Machine

/-- A batch of acks and timeouts, or a call of `sendpkts`. -/
inductive Called (file : List UInt8) (s : Sender) : Sender → Prop
  | events (ev : Events) :
      Called file s
        { s with stat := process ev s.stat, sockWritable := s.sockWritable || ev.writable }
  | send {res : ℕ → SendtoResult} {s' : Sender} {r : ℤ} (h : sendpkts file res s = some (s', r)) :
      Called file s s'

/-- The sequence numbers sent, in order. -/
def Sender.seqs (s : Sender) : List ℕ := s.packets.map RdtPacket.seqNum

/-- What is known of `highestSeq`. -/
structure HighestOk (s : Sender) : Prop where
  total : s.stat.totalSeq < 2 ^ 32
  sent : ∀ q ∈ s.seqs, q < s.stat.totalSeq
  highest : s.stat.highestSeq = s.seqs.foldl max (2 ^ 32 - 1)

section Steps

variable {stat : SenderStat} {s s' : Sender}

/-- **`updateNextSeq` keeps a maximum.** -/
@[simp] theorem updateNextSeq_highestSeq (stat : SenderStat) (lastSent : ℕ) :
    (updateNextSeq stat lastSent).1.highestSeq = max stat.highestSeq lastSent := by
  have hflag : (if lastSent = stat.sendBase then
      { stat with lastSent := lastSent, retrans := false }
      else { stat with lastSent := lastSent }).highestSeq = stat.highestSeq := by
    split <;> rfl
  simp only [updateNextSeq, hflag]
  split
  · rename_i hlt
    exact (max_eq_right hlt.le).symm
  · rename_i hle
    rw [hflag, max_eq_left (not_lt.mp hle)]

theorem merge_highestSeq (stat : SenderStat) (pending : DiffStat) (hasTimeout : Bool) :
    (merge stat pending hasTimeout).highestSeq = stat.highestSeq := by
  cases hdups : pending.threeDups with
  | true => rw [merge_threeDups hdups]
  | false =>
    by_cases hlt : stat.sendBase < pending.sendBase
    · rw [merge_advanced hdups hlt]
    · cases htimeout : hasTimeout with
      | true => rw [merge_timeout hdups hlt rfl]
      | false => rw [merge_idle hdups hlt rfl]

/-- Acks and timeouts leave the field alone. -/
@[simp] theorem process_highestSeq (ev : Events) (stat : SenderStat) :
    (process ev stat).highestSeq = stat.highestSeq := by
  obtain ⟨timer, hread⟩ := readEvents_eq ev stat
  simp only [process, hread]
  split
  · obtain ⟨recvFin, hack⟩ := ackAll_eq ev.acks { stat with timer := timer }
    rw [hack, merge_highestSeq]
  · rfl

end Steps

section Send

variable {s s' : Sender} {file : List UInt8} {res : ℕ → SendtoResult}

theorem Sender.seqs_sentNext (file : List UInt8) (s : Sender) :
    (s.sentNext file).seqs = s.seqs ++ [getNextSeq s.stat] := by
  rw [Sender.seqs, Sender.packets_sentNext, List.map_append]
  rfl

/-- One packet more. -/
theorem HighestOk.sent_one (h : HighestOk s) (file : List UInt8)
    (ha : allowSend s.stat (getNextSeq s.stat) = true) : HighestOk (s.sentNext file) := by
  obtain ⟨-, -, htotal, -⟩ := updateNextSeq_frame
    { s.stat with timer := startTimerIfNotRunning s.stat.timer } (getNextSeq s.stat)
  refine ⟨htotal.trans_lt h.total, ?_, ?_⟩
  · rw [Sender.seqs_sentNext, List.forall_mem_append, List.forall_mem_singleton]
    exact ⟨fun q hq => (h.sent q hq).trans_eq htotal.symm, (lt_totalSeq ha).trans_eq htotal.symm⟩
  · rw [Sender.seqs_sentNext, List.foldl_append, ← h.highest]
    exact updateNextSeq_highestSeq _ _

/-- A call of `sendpkts` keeps the field. -/
theorem HighestOk.send (h : HighestOk s) {r : ℤ} (hs : sendpkts file res s = some (s', r)) :
    HighestOk s' :=
  sendpkts_invariant (fun _ h => ⟨h.total, h.sent, h.highest⟩) (fun _ h ha => h.sent_one file ha) h
    hs

/-- Acks and timeouts keep the field. -/
theorem HighestOk.events (h : HighestOk s) (ev : Events) (writable : Bool) :
    HighestOk { s with stat := process ev s.stat, sockWritable := writable } := by
  obtain ⟨-, htotal, -⟩ := process_frame ev s.stat
  refine ⟨?_, ?_, ?_⟩
  · rw [htotal]
    exact h.total
  · rw [htotal]
    exact h.sent
  · rw [process_highestSeq]
    exact h.highest

end Send

section Runs

variable {file : List UInt8} {totalBytes : ℕ} {s s' : Sender}

theorem highestOk_init (totalBytes : ℕ) : HighestOk (Sender.init totalBytes) where
  total := u32_lt _
  sent _ hq := absurd hq List.not_mem_nil
  highest := rfl

/-- **The field is a maximum** in every run: of its first value and of the numbers sent. -/
theorem highestOk_runs (h : Runs (· = Sender.init totalBytes) (Called file) s) : HighestOk s := by
  refine Runs.invariant ?_ ?_ h
  · rintro s rfl
    exact highestOk_init totalBytes
  · rintro s s' hs hcall
    cases hcall with
    | events ev => exact hs.events ev _
    | send hsend => exact hs.send hsend

end Runs

/-- **The field is never the largest number sent**: in every run it keeps the value it starts with,
which is greater than all of them. -/
theorem highestSeq_not_greatest (file : List UInt8) (totalBytes : ℕ) (s : Sender)
    (h : Runs (· = Sender.init totalBytes) (Called file) s) :
    s.stat.highestSeq = 2 ^ 32 - 1 ∧ (∀ q ∈ s.seqs, q < s.stat.highestSeq) ∧
      ¬ IsGreatest {q | q ∈ s.seqs} s.stat.highestSeq := by
  obtain ⟨htotal, hsent, hhighest⟩ := highestOk_runs h
  have hlt : ∀ q ∈ s.seqs, q < 2 ^ 32 - 1 := by
    intro q hq
    have := hsent q hq
    omega
  have hfirst : s.stat.highestSeq = 2 ^ 32 - 1 := by
    rw [hhighest]
    refine le_antisymm (foldl_max_le.mpr ⟨le_refl _, fun q hq => (hlt q hq).le⟩) ?_
    exact (foldl_max_le.mp (le_refl _)).1
  rw [hfirst]
  exact ⟨rfl, hlt, fun hmax => absurd (hlt _ hmax.1) (lt_irrefl _)⟩

/-- A file of one byte is sent. -/
theorem one_sent : ∃ s, Runs (· = Sender.init 1) (Called [7]) s ∧ s.seqs = [0] := by
  have hsend : ∃ s, sendpkts [7] (fun _ => .sent) (Sender.init 1) = some (s, 0) ∧ s.seqs = [0] :=
    ⟨_, rfl, rfl⟩
  obtain ⟨s, hsend, hseqs⟩ := hsend
  exact ⟨s, Runs.next (Runs.start rfl) (Called.send hsend), hseqs⟩

theorem highestSeq_not_greatest_one : ∃ s : Sender, s.seqs = [0] ∧
    s.stat.highestSeq = 2 ^ 32 - 1 ∧ ¬ IsGreatest {q | q ∈ s.seqs} s.stat.highestSeq := by
  obtain ⟨s, hrun, hseqs⟩ := one_sent
  obtain ⟨hfirst, -, hnot⟩ := highestSeq_not_greatest [7] 1 s hrun
  exact ⟨s, hseqs, hfirst, hnot⟩

/-- The first packet does not get past the `-1`. -/
theorem first_packet_unseen : ¬ ∀ (file : List UInt8) (totalBytes : ℕ) (s : Sender),
    Runs (· = Sender.init totalBytes) (Called file) s → s.seqs ≠ [] →
      IsGreatest {q | q ∈ s.seqs} s.stat.highestSeq := by
  intro h
  obtain ⟨s, hrun, hseqs⟩ := one_sent
  have hmax := h [7] 1 s hrun (by rw [hseqs]; exact List.cons_ne_nil 0 [])
  have hok := highestOk_runs hrun
  have hmem : s.stat.highestSeq ∈ s.seqs := hmax.1
  rw [hseqs] at hmem
  have hzero := List.mem_singleton.mp hmem
  have hle := (foldl_max_le.mp (le_of_eq hok.highest.symm)).1
  omega

end NetworkingLearning.Transfer
