import NetworkingLearning.Transfer.Cwnd

/-!
# The sender (`sender_main.c:85-290`, `adt.c:131-234`)

Model of `reliablyTransfer` as a state (`Sender`) and the functions that its event loop calls:

* `initSenderStat`, `allowSend`, `getNextSeq`, `updateNextSeq` (`adt.c:131-179`), with the timer
  (`adt.c:195-234`);
* `ackAll` (`sender_main.c:114-129`) as a fold of `ackStep`, and `merge` (`sender_main.c:131-158`),
  branch for branch;
* `preparePacket` (`sender_main.c:160-168`) and `sendpkts` (`sender_main.c:170-198`), with its loop
  `sendLoop`;
* `process` and `iterate`: an iteration of the loop (`sender_main.c:233-278`), up to `sendpkts` and
  with it.

Conventions:
* Sequence and ack numbers are `uint32_t`. `DiffStat.sendBase` is a `size_t` but only ever holds one
  of them.
* A timer is its `running` flag; `Events.expired` is what `drain` reads from it. How long it runs
  (`RTT`) is not part of the model: it may expire at any moment.
* `sendto` is given by its results (`SendtoResult`), one for each call of a loop. `EINTR` is retried
  by the source and does not show. An error ends the process (`diep`), which `sendpkts` reports by
  `-1`.
* `recvAll` (`sender_main.c:85-112`) reads at most `WINDOW` acks and checks nothing about them, not
  even where they come from: a batch is a list. What is left behind in `pktBuffer` is not read,
  since `ackAll` gets the number of acks of this iteration.
* `wire` records what was sent, each packet with the state at that moment; the program keeps no such
  record.
* The loop of `sendpkts` runs on fuel; `none` would mean that it has not ended. `sendpkts_ends` says
  that it does.

Out of scope: `main`, `mapFile` and the set-up of the socket and of `epoll` (`sender_main.c:50-83`),
which fail or do nothing that shows. The file is as long as `bytesToTransfer` says: beyond its end
the mapping could not be read.
-/

namespace NetworkingLearning.Transfer

open NetworkingLearning.Machine

/-- `struct rdt_packet`. -/
structure RdtPacket where
  seqNum : ℕ
  ackNum : ℕ
  payload : ℕ
  finByte : UInt8
  data : List UInt8
  deriving DecidableEq

/-- `rdt_packet pkt = {0}`. -/
def RdtPacket.zero : RdtPacket := ⟨0, 0, 0, 0, List.replicate maxPayloadLen 0⟩

/-- `struct ack_packet`. -/
structure AckPacket where
  seqNum : ℕ
  ackNum : ℕ
  finByte : UInt8
  deriving DecidableEq

/-- `struct timer`. -/
structure Timer where
  running : Bool
  deriving DecidableEq

/-- `startTimer`. -/
def startTimer (_ : Timer) : Timer := ⟨true⟩

/-- `startTimerIfNotRunning`. -/
def startTimerIfNotRunning (timer : Timer) : Timer := if timer.running then timer else ⟨true⟩

/-- `stopTimer`. -/
def stopTimer (timer : Timer) : Timer := if timer.running then ⟨false⟩ else timer

/-- `struct statistics`. -/
structure SenderStat where
  cwnd : Cwnd
  totalSeq : ℕ
  sendBase : ℕ
  lastSent : ℕ
  highestSeq : ℕ
  lastChunk : ℕ
  timer : Timer
  retrans : Bool
  recvFin : UInt8
  deriving DecidableEq

/-- `struct diffStatistics`. -/
structure DiffStat where
  sendBase : ℕ
  threeDups : Bool

/-- `initSenderStat`. -/
def initSenderStat (totalBytes : ℕ) : SenderStat where
  cwnd := initCwnd
  totalSeq := u32 (1 + u64 (totalBytes + 2 ^ 64 - 1) / maxPayloadLen)
  sendBase := 0
  lastSent := 2 ^ 32 - 1
  highestSeq := 2 ^ 32 - 1
  lastChunk :=
    if totalBytes % maxPayloadLen = 0 then maxPayloadLen else totalBytes % maxPayloadLen
  timer := ⟨false⟩
  retrans := false
  recvFin := 0

/-- `__allowSend`. -/
def allowSendWindow (cwnd : Cwnd) (base nextSeq : ℕ) : Bool :=
  decide (sub32 nextSeq base < cwnd.window)

/-- `allowSend`. -/
def allowSend (stat : SenderStat) (nextSeq : ℕ) : Bool :=
  (stat.retrans || allowSendWindow stat.cwnd stat.sendBase nextSeq) &&
    decide (nextSeq < stat.totalSeq)

/-- `getNextSeq`. -/
def getNextSeq (stat : SenderStat) : ℕ :=
  if stat.retrans ∨ stat.lastSent < stat.sendBase then stat.sendBase else u32 (stat.lastSent + 1)

/-- `updateNextSeq`: the state, and the next sequence number. -/
def updateNextSeq (stat : SenderStat) (lastSent : ℕ) : SenderStat × ℕ :=
  let stat := { stat with lastSent := lastSent }
  let stat := if stat.lastSent = stat.sendBase then { stat with retrans := false } else stat
  let stat := if stat.highestSeq < lastSent then { stat with highestSeq := lastSent } else stat
  (stat, getNextSeq stat)

/-! ## Acks -/

/-- The loop body of `ackAll`, on the state and `pending->sendBase`. -/
def ackStep (st : SenderStat × ℕ) (pkt : AckPacket) : SenderStat × ℕ :=
  if pkt.ackNum ≥ st.2 then
    ({ st.1 with
      recvFin := st.1.recvFin ||| pkt.finByte
      cwnd := ackCwnd st.1.cwnd pkt.ackNum }, pkt.ackNum)
  else st

/-- `ackAll`. -/
def ackAll (pkts : List AckPacket) (currStat : SenderStat) : SenderStat × DiffStat :=
  let r := pkts.foldl ackStep (currStat, currStat.sendBase)
  let c := confirmThreeDups r.1.cwnd
  ({ r.1 with cwnd := c.1 }, ⟨r.2, c.2⟩)

/-- `merge`. -/
def merge (stat : SenderStat) (pending : DiffStat) (hasTimeout : Bool) : SenderStat :=
  let stat := { stat with retrans := pending.threeDups }
  let stat :=
    if stat.sendBase < pending.sendBase then
      let stat := { stat with sendBase := pending.sendBase }
      if !stat.retrans then
        if stat.sendBase < getNextSeq stat then { stat with timer := startTimer stat.timer }
        else { stat with timer := stopTimer stat.timer }
      else stat
    else if !stat.retrans then
      let stat := { stat with retrans := hasTimeout }
      if stat.retrans then { stat with cwnd := timeoutCwnd stat.cwnd stat.sendBase } else stat
    else stat
  if stat.retrans then { stat with timer := stopTimer stat.timer } else stat

/-! ## Sending -/

/-- `prepare_packet` on a zeroed packet. The offset is a product of `uint32_t`s. -/
def preparePacket (file : List UInt8) (seq len : ℕ) (lastSeq : Bool) : RdtPacket where
  seqNum := seq
  ackNum := 0
  payload := len
  finByte := if lastSeq then 1 else 0
  data := (file.drop (u32 (maxPayloadLen * seq))).take len ++ RdtPacket.zero.data.drop len

/-- The packet the loop of `sendpkts` builds for `seq`. -/
def buildPacket (file : List UInt8) (stat : SenderStat) (seq : ℕ) : RdtPacket :=
  let len := if seq + 1 = stat.totalSeq then stat.lastChunk else maxPayloadLen
  preparePacket file seq len (seq + 1 = stat.totalSeq)

@[simp] theorem buildPacket_seqNum (file : List UInt8) (stat : SenderStat) (seq : ℕ) :
    (buildPacket file stat seq).seqNum = seq := rfl

/-- What a call of `sendto` ends with. -/
inductive SendtoResult
  | sent
  | eagain
  | error
  deriving DecidableEq

/-- The variables of `reliablyTransfer`, and the record of what was sent. -/
structure Sender where
  stat : SenderStat
  sockWritable : Bool
  wire : List (SenderStat × RdtPacket)

/-- The packets sent so far. -/
def Sender.packets (s : Sender) : List RdtPacket := s.wire.map Prod.snd

/-- The loop of `sendpkts` at `seq`; `res i` is the result of its `i`-th call of `sendto`. -/
def sendLoop (file : List UInt8) (res : ℕ → SendtoResult) :
    ℕ → ℕ → ℕ → Sender → Option (Sender × ℤ)
  | fuel, i, seq, s =>
    if allowSend s.stat seq then
      match fuel with
      | 0 => none
      | fuel + 1 =>
        let pkt := buildPacket file s.stat seq
        match res i with
        | .eagain => some ({ s with sockWritable := false }, 0)
        | .error => some (s, -1)
        | .sent =>
          let stat := { s.stat with timer := startTimerIfNotRunning s.stat.timer }
          let r := updateNextSeq stat seq
          sendLoop file res fuel (i + 1) r.2
            { s with stat := r.1, wire := s.wire ++ [(s.stat, pkt)] }
    else some (s, 0)

/-- `sendpkts`. -/
def sendpkts (file : List UInt8) (res : ℕ → SendtoResult) (s : Sender) : Option (Sender × ℤ) :=
  if s.sockWritable && allowSend s.stat (getNextSeq s.stat) then
    sendLoop file res (s.stat.totalSeq + 2) 0 (getNextSeq s.stat) s
  else some (s, 0)

/-! ## The event loop -/

/-- What `epoll_wait` and the reads after it give: the acks `recvAll` has read, whether there was an
`EPOLLOUT`, and what `drain` has read if the timer had an event. -/
structure Events where
  acks : List AckPacket
  writable : Bool
  expired : Option ℕ

/-- The flag `hasTimeout`. -/
def Events.hasTimeout (ev : Events) : Bool :=
  match ev.expired with
  | some round => decide (round ≥ 1)
  | none => false

/-- The state after the events have been read. -/
def readEvents (ev : Events) (stat : SenderStat) : SenderStat :=
  if ev.expired.isSome then { stat with timer := ⟨false⟩ } else stat

/-- The part of an iteration before `sendpkts`. -/
def process (ev : Events) (stat : SenderStat) : SenderStat :=
  let stat := readEvents ev stat
  if ev.acks.length ≠ 0 ∨ ev.hasTimeout then
    let r := ackAll ev.acks stat
    merge r.1 r.2 ev.hasTimeout
  else stat

/-- One iteration of the event loop. -/
def iterate (file : List UInt8) (res : ℕ → SendtoResult) (ev : Events) (s : Sender) :
    Option (Sender × ℤ) :=
  sendpkts file res
    { s with stat := process ev s.stat, sockWritable := s.sockWritable || ev.writable }

/-- `reliablyTransfer` before the first `sendpkts`. -/
def Sender.init (totalBytes : ℕ) : Sender := ⟨initSenderStat totalBytes, true, []⟩

/-- `rdt_packet lastpkt`, sent after the loop. -/
def lastpkt : RdtPacket := { RdtPacket.zero with ackNum := 7 }

/-- A file of two full packets. -/
def twoPackets : List UInt8 := List.replicate 2888 0

end NetworkingLearning.Transfer
