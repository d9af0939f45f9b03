/-
One TCP connection (`kernel/net/tcp.cpp`).

The functions of the module on the seat of one connection: what a segment that
names it does, the user's calls, and the two clocks.  A seat that is released is
`none`.  Every function also tells the segments it sends.  The waits of the clocks
are left open: a retransmission or an expiry may come at any time.

* `absorbSegment`, `handle` — a segment arrives;
* `send`, `receive`, `close`, `abandon` — the user's calls;
* `retransmitDue`, `expireTimeWait` — the clocks.
-/
import Mathlib

namespace Cinux.Tcp

def kTcpReceiveWindowBytes : ℕ := 4096

def kTcpSendWindowBytes : ℕ := 4096

/-- `kMaxDatagramBytes` without both headers. -/
def kTcpMssBytes : ℕ := 1460

def kTcpReorderSeats : ℕ := 4

def kTcpFastRetransmitAcks : ℕ := 3

def kTcpMaxRetransmits : ℕ := 5

/-- `seq_before`. -/
def seqBefore (left right : UInt32) : Bool := 2 ^ 31 ≤ (left - right).toNat

/-- `seq_before_eq`. -/
def seqBeforeEq (left right : UInt32) : Bool := left = right || seqBefore left right

/-- The states of a connection. -/
inductive TcpState
  | closed
  | synSent
  | synReceived
  | established
  | finWait1
  | finWait2
  | closeWait
  | closing
  | lastAck
  | timeWait
deriving DecidableEq

/-- `past_fin`. -/
def pastFin : TcpState → Bool
  | .closeWait | .closing | .timeWait | .lastAck => true
  | _ => false

/-- The flag bits. -/
structure Flags where
  syn : Bool
  ack : Bool
  fin : Bool
  rst : Bool
  psh : Bool
deriving DecidableEq

/-- A segment as `ParseTcp` gives it, with its payload. -/
structure Segment where
  sequence : UInt32
  acknowledgement : UInt32
  flags : Flags
  window : UInt16
  payload : List UInt8
deriving DecidableEq

/-- `kSegmentLength`: the sequence numbers the segment occupies. -/
def Segment.length (v : Segment) : ℕ := v.payload.length + v.flags.syn.toNat + v.flags.fin.toNat

/-- The number after the segment's last. -/
def Segment.stop (v : Segment) : UInt32 := v.sequence + UInt32.ofNat v.length

/-- A `ReorderSeat` in use; what is parked is never empty. -/
structure ReorderSeat where
  start : UInt32
  data : List UInt8
  nonempty : data ≠ []
deriving DecidableEq

/-- The record of a connection. -/
structure Connection where
  state : TcpState
  sndUna : UInt32
  sndNxt : UInt32
  rcvNxt : UInt32
  sndWindow : UInt32
  inbox : List UInt8
  outbox : List UInt8
  reorder : List (Option ReorderSeat)
  duplicateAcks : ℕ
  retransmitCount : ℕ
  inRetransmission : Bool
deriving DecidableEq

namespace Connection

/-- The room of the inbox. -/
def room (c : Connection) : ℕ := kTcpReceiveWindowBytes - c.inbox.length

/-- `receive_window_of`. -/
def receiveWindowOf (c : Connection) : UInt16 := UInt16.ofNat c.room

/-- `transmit_segment`. -/
def transmitSegment (c : Connection) (flags : Flags) (payload : List UInt8) (sequence : UInt32) :
    Segment := ⟨sequence, c.rcvNxt, flags, c.receiveWindowOf, payload⟩

end Connection

/-- ACK. -/
def flagsAck : Flags := ⟨false, true, false, false, false⟩

/-- ACK and PSH. -/
def flagsAckPsh : Flags := ⟨false, true, false, false, true⟩

/-- SYN. -/
def flagsSyn : Flags := ⟨true, false, false, false, false⟩

/-- SYN and ACK. -/
def flagsSynAck : Flags := ⟨true, true, false, false, false⟩

/-- FIN and ACK. -/
def flagsFinAck : Flags := ⟨false, true, true, false, false⟩

namespace Connection

/-- The acknowledgement of what has arrived. -/
def acknowledge (c : Connection) : Segment := c.transmitSegment flagsAck [] c.sndNxt

/-- `snd_nxt - snd_una`. -/
def inFlight (c : Connection) : ℕ := (c.sndNxt - c.sndUna).toNat

/-- The states whose last number sent is the FIN. -/
def finSent (c : Connection) : Bool :=
  c.state = .finWait1 || c.state = .closing || c.state = .lastAck

/-- What `resend_oldest` sends. -/
def oldest (c : Connection) : List Segment :=
  if c.state = .synSent then [c.transmitSegment flagsSyn [] c.sndUna]
  else if c.outbox = [] ∧ c.finSent then [c.transmitSegment flagsFinAck [] c.sndUna]
  else
    let stretch := min (min c.inFlight kTcpMssBytes) c.outbox.length
    if stretch = 0 then []
    else [c.transmitSegment flagsAckPsh (c.outbox.take stretch) c.sndUna]

/-- `resend_oldest`. -/
def resendOldest (c : Connection) : Connection × List Segment :=
  ({ c with inRetransmission := true }, c.oldest)

/-- Whether `absorb_ack` ends the work on the segment, the connection, and what is sent. -/
structure AckResult where
  ends : Bool
  conn : Option Connection
  sent : List Segment

/-- The end of `absorb_ack`: everything sent may be acknowledged now. -/
def settleAck (c : Connection) (v : Segment) (sent : List Segment) : AckResult :=
  let rest (c : Connection) : AckResult :=
    ⟨v.length = 0 && v.sequence = c.rcvNxt, some c, sent⟩
  if c.sndUna = c.sndNxt then
    match c.state with
    | .finWait1 => rest { c with state := .finWait2 }
    | .closing => ⟨true, some { c with state := .timeWait }, sent⟩
    | .lastAck => ⟨true, none, sent⟩
    | _ => rest c
  else rest c

/-- `absorb_ack`. -/
def absorbAck (c : Connection) (v : Segment) : AckResult :=
  let c := if v.flags.ack then { c with sndWindow := UInt32.ofNat v.window.toNat } else c
  if v.flags.ack && seqBefore c.sndUna v.acknowledgement then
    if seqBefore c.sndNxt v.acknowledgement then ⟨true, some c, []⟩
    else
      let span := (v.acknowledgement - c.sndUna).toNat
      settleAck { c with sndUna := v.acknowledgement, outbox := c.outbox.drop span,
                         duplicateAcks := 0 } v []
  else if v.flags.ack && v.acknowledgement = c.sndUna && v.length = 0 && c.sndUna != c.sndNxt then
    if kTcpFastRetransmitAcks ≤ c.duplicateAcks + 1 then
      let resent := { c with duplicateAcks := 0 }.resendOldest
      settleAck resent.1 v resent.2
    else settleAck { c with duplicateAcks := c.duplicateAcks + 1 } v []
  else settleAck c v []

/-- A parked segment and the arriving one share a number. -/
def overlaps (v : Segment) (seat : ReorderSeat) : Bool :=
  seqBefore v.sequence (seat.start + UInt32.ofNat seat.data.length) &&
    seqBefore seat.start (v.sequence + UInt32.ofNat v.payload.length)

/-- The first free seat takes the segment. -/
def park (seat : ReorderSeat) : List (Option ReorderSeat) → List (Option ReorderSeat)
  | [] => []
  | none :: rest => some seat :: rest
  | some other :: rest => some other :: park seat rest

/-- `store_out_of_order`. -/
def storeOutOfOrder (c : Connection) (v : Segment) : Connection :=
  if h : v.payload = [] then c
  else if v.flags.fin || kTcpMssBytes < v.payload.length then c
  else if !seqBefore v.sequence (c.rcvNxt + UInt32.ofNat kTcpReceiveWindowBytes) then c
  else if c.reorder.any fun seat => seat.any (overlaps v) then c
  else { c with reorder := park ⟨v.sequence, v.payload, h⟩ c.reorder }

/-- The parked segment is next, and the inbox has room for it. -/
def ready (c : Connection) (seat : ReorderSeat) : Bool :=
  seat.start = c.rcvNxt && seat.data.length ≤ c.room

/-- One seat of a pass of `harvest_reorder`. -/
def harvestSeat (c : Connection) (index : ℕ) : Bool × Connection :=
  match c.reorder[index]? with
  | some (some seat) =>
    if c.ready seat then
      (true, { c with inbox := c.inbox ++ seat.data,
                      rcvNxt := c.rcvNxt + UInt32.ofNat seat.data.length,
                      reorder := c.reorder.set index none })
    else (false, c)
  | _ => (false, c)

/-- A pass over the seats from one on. -/
def harvestFrom : ℕ → ℕ → Bool → Connection → Bool × Connection
  | 0, _, delivered, c => (delivered, c)
  | n + 1, index, delivered, c =>
    harvestFrom n (index + 1) (delivered || (c.harvestSeat index).1) (c.harvestSeat index).2

/-- The passes of `harvest_reorder`: every pass but the last empties a seat. -/
def harvestPasses : ℕ → Connection → Connection
  | 0, c => c
  | n + 1, c =>
    if (harvestFrom c.reorder.length 0 false c).1 then
      harvestPasses n (harvestFrom c.reorder.length 0 false c).2
    else (harvestFrom c.reorder.length 0 false c).2

/-- `harvest_reorder`. -/
def harvestReorder (c : Connection) : Connection := harvestPasses (c.reorder.length + 1) c

/-- The bytes of a segment that `absorb_bytes` skips; a `size_t` wraps. -/
def payloadSkip (c : Connection) (v : Segment) : ℕ :=
  ((c.rcvNxt - v.sequence).toNat + 2 ^ 64 - v.flags.syn.toNat) % 2 ^ 64

/-- The bytes of a segment that go into the inbox. -/
def wanted (c : Connection) (v : Segment) : List UInt8 :=
  (v.payload.drop (c.payloadSkip v)).take c.room

/-- The state after the peer's FIN. -/
def afterFin : TcpState → TcpState
  | .established | .synReceived => .closeWait
  | .finWait1 => .closing
  | .finWait2 => .timeWait
  | state => state

/-- `absorb_bytes`. -/
def absorbBytes (c : Connection) (v : Segment) : Connection × List Segment :=
  let taken := c.wanted v
  let c := { c with inbox := c.inbox ++ taken,
                    rcvNxt := c.rcvNxt + UInt32.ofNat taken.length }
  if v.flags.fin && c.rcvNxt + 1 = v.stop then
    let c := { c with rcvNxt := v.stop, state := afterFin c.state }
    (c, [c.acknowledge])
  else (c, if taken = [] then [] else [c.acknowledge])

/-- The part of `absorb_segment` after the acknowledgement. -/
def absorbSequence (c : Connection) (v : Segment) : Connection × List Segment :=
  if seqBeforeEq v.stop c.rcvNxt then (c, [c.acknowledge])
  else if seqBefore c.rcvNxt v.sequence then
    let c := (c.storeOutOfOrder v).harvestReorder
    (c, [c.acknowledge])
  else
    let absorbed := c.absorbBytes v
    (absorbed.1.harvestReorder, absorbed.2)

/-- `absorb_segment` goes on where `absorb_ack` does not end it. -/
def proceed (acked : AckResult) (v : Segment) : Option Connection × List Segment :=
  match acked.ends, acked.conn with
  | false, some c => (some (c.absorbSequence v).1, acked.sent ++ (c.absorbSequence v).2)
  | _, conn => (conn, acked.sent)

/-- The two judgements of a segment that a synchronized connection makes. -/
def absorbSynchronized (c : Connection) (v : Segment) : Option Connection × List Segment :=
  proceed (c.absorbAck v) v

/-- `absorb_segment`. -/
def absorbSegment (c : Connection) (v : Segment) : Option Connection × List Segment :=
  if v.flags.rst then (none, [])
  else
    match c.state with
    | .synSent =>
      if v.flags.syn && v.flags.ack && v.acknowledgement = c.sndNxt then
        let c := { c with rcvNxt := v.sequence + 1, sndUna := v.acknowledgement,
                          sndWindow := UInt32.ofNat v.window.toNat, state := .established }
        (some c, [c.acknowledge])
      else (some c, [])
    | .synReceived =>
      if !v.flags.ack then
        if v.flags.syn && v.sequence + 1 = c.rcvNxt && v.length = 1 then
          (some c, [c.transmitSegment flagsSynAck [] c.sndUna])
        else (some c, [])
      else if v.acknowledgement ≠ c.sndNxt then (some c, [])
      else
        { c with sndUna := v.acknowledgement, state := .established }.absorbSynchronized v
    | .timeWait => (some c, [c.acknowledge])
    | .closed => (some c, [])
    | _ => c.absorbSynchronized v

/-- `after_ack_movement`, but for the clock's readings. -/
def afterAckMovement (c : Connection) (moved : Bool) : Connection :=
  if moved then { c with inRetransmission := false, retransmitCount := 0 } else c

/-- `handle`, for the connection the segment names.  A bare SYN ends a connection that lingers. -/
def handle (c : Connection) (v : Segment) : Option Connection × List Segment :=
  if c.state = .timeWait ∧ v.flags.syn ∧ !v.flags.ack then (none, [])
  else
    let absorbed := c.absorbSegment v
    (absorbed.1.map fun after => after.afterAckMovement (seqBefore c.sndUna after.sndUna),
      absorbed.2)

end Connection

/-! ### The user's calls -/

/-- How a call on a connection can fail. -/
inductive Refusal
  | notFound
  | wouldBlock
  | brokenPipe
deriving DecidableEq

namespace Connection

/-- The loop of `send`: the payload in stretches of at most a segment.  A full outbox drops what
is pushed. -/
def sendChunks : ℕ → List UInt8 → Connection → Connection × List Segment
  | 0, _, c => (c, [])
  | n + 1, payload, c =>
    if payload = [] then (c, [])
    else
      let chunk := payload.take kTcpMssBytes
      let segment := c.transmitSegment flagsAckPsh chunk c.sndNxt
      let after := sendChunks n (payload.drop kTcpMssBytes)
        { c with outbox := (c.outbox ++ chunk).take kTcpSendWindowBytes,
                 sndNxt := c.sndNxt + UInt32.ofNat chunk.length }
      (after.1, segment :: after.2)

/-- The bytes `send` takes of those it is offered. -/
def accepts (c : Connection) (payload : List UInt8) : List UInt8 :=
  payload.take (min kTcpSendWindowBytes c.sndWindow.toNat - c.inFlight)

/-- `send`: how many bytes are taken. -/
def send (c : Connection) (payload : List UInt8) : Except Refusal ℕ × Connection × List Segment :=
  if c.state = .synSent ∨ c.state = .synReceived then (.error .wouldBlock, c, [])
  else if c.state ≠ .established ∧ c.state ≠ .closeWait then (.error .brokenPipe, c, [])
  else
    let accepted := c.accepts payload
    (.ok accepted.length, sendChunks accepted.length accepted c)

/-- `receive`: the bytes taken. -/
def receive (c : Connection) (capacity : ℕ) :
    Except Refusal (List UInt8) × Connection × List Segment :=
  if c.inbox = [] then
    if pastFin c.state then (.ok [], c, []) else (.error .wouldBlock, c, [])
  else
    let after := { c with inbox := c.inbox.drop capacity }
    (.ok (c.inbox.take capacity), after,
      if c.room = 0 ∧ after.room ≠ 0 then [after.acknowledge] else [])

/-- `close`. -/
def close (c : Connection) : Option Connection × List Segment :=
  match c.state with
  | .synSent => (none, [])
  | .established | .synReceived =>
    (some { c with sndNxt := c.sndNxt + 1, state := .finWait1 },
      [c.transmitSegment flagsFinAck [] c.sndNxt])
  | .closeWait =>
    (some { c with sndNxt := c.sndNxt + 1, state := .lastAck },
      [c.transmitSegment flagsFinAck [] c.sndNxt])
  | _ => (some c, [])

/-- The reset `abandon` sends. -/
def reset (c : Connection) : Segment :=
  if c.state = .synSent then ⟨c.sndNxt, 0, ⟨false, false, false, true, false⟩, 0, []⟩
  else ⟨c.sndNxt, c.rcvNxt, ⟨false, true, false, true, false⟩, 0, []⟩

/-- `abandon`. -/
def abandon (c : Connection) : Option Connection × List Segment := (none, [c.reset])

/-! ### The clocks -/

/-- `retransmit_due`. -/
def retransmitDue (c : Connection) : Option Connection × List Segment :=
  if kTcpMaxRetransmits ≤ c.retransmitCount then (none, [])
  else
    let resent := { c with retransmitCount := c.retransmitCount + 1 }.resendOldest
    (some resent.1, resent.2)

/-- `expire_time_wait`. -/
def expireTimeWait (c : Connection) : Option Connection :=
  if c.state = .timeWait then none else some c

/-! ### How a connection begins -/

/-- A seat as `connect` and `answer_unclaimed` fill it. -/
def fresh (state : TcpState) (iss rcvNxt : UInt32) : Connection where
  state := state
  sndUna := iss
  sndNxt := iss + 1
  rcvNxt := rcvNxt
  sndWindow := UInt32.ofNat kTcpSendWindowBytes
  inbox := []
  outbox := []
  reorder := List.replicate kTcpReorderSeats none
  duplicateAcks := 0
  retransmitCount := 0
  inRetransmission := false

/-- `connect`. -/
def connect (iss : UInt32) : Connection × List Segment :=
  let c := fresh .synSent iss 0
  (c, [c.transmitSegment flagsSyn [] iss])

/-- `answer_unclaimed` at a listening port with a free seat. -/
def answer (iss : UInt32) (v : Segment) : Connection × List Segment :=
  let c := fresh .synReceived iss (v.sequence + 1)
  (c, [c.transmitSegment flagsSynAck [] iss])

end Connection

end Cinux.Tcp
