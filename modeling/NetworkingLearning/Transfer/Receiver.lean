import Mathlib.Logic.Function.Basic
import NetworkingLearning.Transfer.Sender

/-!
# The receiver (`receiver_main.c:37-241`)

Model of `reliablyReceive` (`receiver_main.c:163-241`) as a state (`Receiver`) and the steps of its
loop:

* `buildAckPacket`, `writeToFile` and `mapToQueue` (`receiver_main.c:38-57`,
  `receiver_main.c:108-112`) as they stand. `build_ack_packet` overwrites the `seq_num` of the
  packet that it is given, in the ring too, and so it does here.
* `recvPacket` (`receiver_main.c:115-148`): the size, the new `si_other` for any packet `0`, and
  only then the comparison of the addresses.
* `checkAndSentBuffer` and `writeStep`: the two loops of `check_and_sent_buffer`
  (`receiver_main.c:69-106`).
* `receive`: one datagram in the loop of `reliablyReceive` (`receiver_main.c:186-231`).
* `waitForBreak` (`receiver_main.c:150-161`): the 45 acks at the end, after which nothing is read.

Conventions:
* `rec_queue` is indexed by `seq % WINDOW`; an array is a function of the index. Its fields `start`,
  `end` and `length` are never used and left out.
* `recvfrom` gives a datagram: its size, its source and the packet read. Addresses are only
  compared. A datagram that is too short is refused by its size; what the buffer then holds goes
  into an ack as `fin_byte`, so the packet is part of the datagram in any case.
* A payload above `MAX_PAYLOAD_LEN`, which no sender of this repository builds, would make the
  source read behind `data`; here it ends with the array.
* `check_and_sent_buffer` sends its ack before it writes, so other parties may act in between. The
  receiver is then in `Mode.writing`, and `writeStep` is one pass of the second loop or its end.
* The first loop of `check_and_sent_buffer` ends unless every slot is occupied; then it never does,
  which is `Mode.spinning`.
* `acks` records what was sent, and `file` what was written; the program keeps no such records.

Out of scope: failures of `write`, `recvfrom` and the `sendto` of an ack, where the process exits
(`EINTR` is retried and does not show), and the set-up of the socket and of the file.
-/

namespace NetworkingLearning.Transfer

open NetworkingLearning.Machine

/-- `struct sockaddr_in`. -/
structure SockAddr where
  sinPort : ℕ
  sinAddr : ℕ
  deriving DecidableEq

/-- `receiverQ`. -/
structure ReceiverQ where
  buffer : ℕ → RdtPacket
  buflen : ℕ → ℕ

/-- What `recvfrom` gives: `numbytes`, the source and the packet. -/
structure Datagram where
  numbytes : ℕ
  addr : SockAddr
  packet : RdtPacket

/-- `sizeof(rdt_packet)`. -/
def rdtPacketSize : ℕ := 1456

/-- A datagram of a whole packet. -/
def datagram (addr : SockAddr) (packet : RdtPacket) : Datagram := ⟨rdtPacketSize, addr, packet⟩

/-- Where the loop of `reliablyReceive` is: at `recvPacket`; in the second loop of
`check_and_sent_buffer` with the number it has acked, `ret_seq_num` and `retval`; in a first loop
that does not end; past the loop. -/
inductive Mode
  | receiving
  | writing (lastAckNum retSeqNum : ℕ) (retval : ℤ)
  | spinning
  | finished
  deriving DecidableEq

/-- The variables of `reliablyReceive`. -/
structure Receiver where
  siOther : SockAddr
  recQueue : ReceiverQ
  lastAckNum : ℕ
  file : List UInt8
  acks : List AckPacket
  mode : Mode

/-- `reliablyReceive` before its loop. -/
def Receiver.init : Receiver where
  siOther := ⟨0, 0⟩
  recQueue := ⟨fun _ => RdtPacket.zero, fun _ => 0⟩
  lastAckNum := 0
  file := []
  acks := []
  mode := .receiving

/-- `build_ack_packet`, which also writes to `packet`. -/
def buildAckPacket (ackPacket : AckPacket) (packet : RdtPacket) (newAckNum : ℕ) :
    AckPacket × RdtPacket :=
  ({ ackPacket with ackNum := newAckNum, finByte := packet.finByte },
    { packet with seqNum := packet.ackNum })

/-- `write_to_file`. -/
def writeToFile (file : List UInt8) (packet : RdtPacket) : List UInt8 :=
  file ++ packet.data.take packet.payload

/-- `map_to_queue`. -/
def mapToQueue (queue : ReceiverQ) (packet : RdtPacket) : ReceiverQ :=
  let seqNum := packet.seqNum % window
  ⟨Function.update queue.buffer seqNum packet, Function.update queue.buflen seqNum 1⟩

/-- `recvPacket`: the result and `si_other`. -/
def recvPacket (d : Datagram) (siOther : SockAddr) : ℤ × SockAddr :=
  if d.numbytes ≠ rdtPacketSize then (-1, siOther)
  else
    let siOther := if d.packet.seqNum = 0 then d.addr else siOther
    if d.addr.sinPort ≠ siOther.sinPort ∨ d.addr.sinAddr ≠ siOther.sinAddr then (-1, siOther)
    else (0, siOther)

/-- An ack of `last_ack_num`, built from `packet`. -/
def sendAckPacket (r : Receiver) (packet : RdtPacket) : Receiver :=
  { r with acks := r.acks ++ [(buildAckPacket ⟨0, 0, 0⟩ packet r.lastAckNum).1] }

@[simp] theorem sendAckPacket_mode (r : Receiver) (packet : RdtPacket) :
    (sendAckPacket r packet).mode = r.mode := rfl

@[simp] theorem sendAckPacket_lastAckNum (r : Receiver) (packet : RdtPacket) :
    (sendAckPacket r packet).lastAckNum = r.lastAckNum := rfl

/-- `wait_for_break`, and the exit from the loop. -/
def waitForBreak (r : Receiver) : Receiver :=
  { r with
    acks := r.acks ++ List.replicate 45 ⟨0, r.lastAckNum, 1⟩
    mode := .finished }

@[simp] theorem waitForBreak_mode (r : Receiver) : (waitForBreak r).mode = .finished := rfl

/-- The first loop of `check_and_sent_buffer`. It has seen every slot when it runs out of fuel. -/
def ackScan (buflen : ℕ → ℕ) : ℕ → ℕ → Option ℕ
  | fuel, lastAckNum =>
    if buflen (lastAckNum % window) = 1 then
      match fuel with
      | 0 => none
      | fuel + 1 => ackScan buflen fuel (u32 (lastAckNum + 1))
    else some lastAckNum

/-- `check_and_sent_buffer` before its second loop. -/
def checkAndSentBuffer (r : Receiver) (pkt : RdtPacket) : Receiver :=
  match ackScan r.recQueue.buflen window r.lastAckNum with
  | none => { r with mode := .spinning }
  | some ackNum =>
    if ackNum > r.lastAckNum then
      let slot := sub32 ackNum 1 % window
      let a := buildAckPacket ⟨0, 0, 0⟩ (r.recQueue.buffer slot) ackNum
      { r with
        recQueue := { r.recQueue with buffer := Function.update r.recQueue.buffer slot a.2 }
        acks := r.acks ++ [a.1]
        mode := .writing ackNum r.lastAckNum 0 }
    else
      { r with
        acks := r.acks ++ [(buildAckPacket ⟨0, 0, 0⟩ pkt ackNum).1]
        mode := .writing ackNum r.lastAckNum 0 }

/-- One pass of the second loop of `check_and_sent_buffer`, or its return. -/
def writeStep (r : Receiver) : Receiver :=
  match r.mode with
  | .writing ackNum ret retval =>
    let slot := ret % window
    if r.recQueue.buflen slot = 1 then
      let tempPkt := r.recQueue.buffer slot
      { r with
        file := writeToFile r.file tempPkt
        recQueue :=
          ⟨Function.update r.recQueue.buffer slot RdtPacket.zero,
            Function.update r.recQueue.buflen slot 0⟩
        mode := .writing ackNum (u32 (ret + 1)) (if tempPkt.finByte = 1 then 1 else retval) }
    else if retval = 1 then waitForBreak { r with lastAckNum := ret }
    else { r with lastAckNum := ret, mode := .receiving }
  | _ => r

/-- One datagram in the loop of `reliablyReceive`, up to the second loop of
`check_and_sent_buffer`. -/
def receive (d : Datagram) (r : Receiver) : Receiver :=
  match r.mode with
  | .receiving =>
    let p := recvPacket d r.siOther
    let r := { r with siOther := p.2 }
    if p.1 ≠ 0 then
      if r.lastAckNum = 0 then r else sendAckPacket r d.packet
    else if d.packet.seqNum = r.lastAckNum then
      let r := { r with
        file := writeToFile r.file d.packet
        lastAckNum := u32 (d.packet.seqNum + 1) }
      if d.packet.finByte = 1 then waitForBreak r else checkAndSentBuffer r d.packet
    else if d.packet.seqNum > r.lastAckNum then
      sendAckPacket { r with recQueue := mapToQueue r.recQueue d.packet } d.packet
    else sendAckPacket r d.packet
  | _ => r

/-- The second loop of `check_and_sent_buffer`, with fuel. -/
def writeLoop : ℕ → Receiver → Option Receiver
  | fuel, r =>
    match r.mode with
    | .writing _ _ _ =>
      match fuel with
      | 0 => none
      | fuel + 1 => writeLoop fuel (writeStep r)
    | _ => some r

/-- One pass of the loop of `reliablyReceive`. -/
def handle (d : Datagram) (r : Receiver) : Option Receiver :=
  writeLoop (window + 1) (receive d r)

end NetworkingLearning.Transfer
