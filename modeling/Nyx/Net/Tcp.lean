import Nyx.Net.Wire

/-! The TCP stack (`kernel/tcp.c`) over the IP layer's loopback ring (`kernel/ip.c`).

A connection has one buffer for unread data and one for the last segment it sent that takes up
sequence numbers. Which calls of `kmalloc` succeed is the machine's `memory`; a receive buffer is
always granted, since the source would write through `NULL`. `recv_cap` (bookkeeping of the
buffer's growth) and `sent_unacked` (never read) are left out. `log` is not in the source, and no
operation reads it: it records how connections come and go. -/
namespace Nyx.Net

inductive TcpState
  | closed
  | synSent
  | synRcvd
  | established
  | finWait1
  | finWait2
  | closeWait
  | lastAck
  | timeWait
  | listen
deriving DecidableEq, Repr

abbrev tcpMaxConns : Nat := 32
abbrev ConnId := Fin tcpMaxConns

instance : NeZero tcpMaxConns := ⟨by decide⟩

def tcpRtoInitial : BitVec 32 := 300#32
def tcpRtoMax : BitVec 32 := 2400#32
def tcpMaxRetries : Nat := 5

/-- A segment kept for retransmission (`rt_seg` and the fields beside it): its bytes, and the
acknowledgement number that clears it. -/
structure Outstanding where
  packet : List Byte
  ackSeq : BitVec 32
  sentTick : BitVec 32
  rto : BitVec 32
  retries : Nat
deriving DecidableEq, Repr

structure Conn where
  active : Bool
  state : TcpState
  accepted : Bool
  srcIp : BitVec 32
  dstIp : BitVec 32
  srcPort : BitVec 16
  dstPort : BitVec 16
  seq : BitVec 32
  ack : BitVec 32
  recvBuf : List Byte
  rt : Option Outstanding
deriving DecidableEq, Repr

def Conn.unused : Conn := ⟨false, .closed, false, 0, 0, 0, 0, 0, 0, [], none⟩

/-- A packet between two addresses. -/
structure Datagram where
  srcIp : BitVec 32
  dstIp : BitVec 32
  packet : List Byte
deriving DecidableEq, Repr

inductive Event
  | connect (i : ConnId)
  | listen (i : ConnId)
  | spawn (i : ConnId) (port : BitVec 16)
  | accept (i : ConnId)
  | close (i : ConnId)
deriving DecidableEq, Repr

def Event.conn : Event → ConnId
  | .connect i | .listen i | .spawn i _ | .accept i | .close i => i

structure Stack where
  conns : ConnId → Conn
  nextIsn : BitVec 32
  /-- Transmissions that the testing hook still drops. -/
  dropTx : Nat
  /-- `get_ticks()`. -/
  now : BitVec 32
  /-- The addresses of the network cards. -/
  nics : List (BitVec 32)
  /-- The destinations whose next hop ARP resolves. -/
  resolves : BitVec 32 → Bool
  memory : Nat → Bool
  mallocs : Nat
  /-- The loopback ring, oldest packet first. -/
  ring : List Datagram
  /-- What was handed to the network cards, oldest first. -/
  wire : List Datagram
  log : List Event

namespace Stack

variable (s : Stack)

def setConn (i : ConnId) (c : Conn) : Stack := {s with conns := Function.update s.conns i c}

def kmalloc : Stack × Bool := ({s with mallocs := s.mallocs + 1}, s.memory s.mallocs)

def record (e : Event) : Stack := {s with log := e :: s.log}

/-! ### The IP layer -/

/-- 127.0.0.1, the address of `lo`. -/
def loopbackIp : BitVec 32 := 0x0100007F#32

def loQueueLen : Nat := 16
def loMaxPkt : Nat := 2048
def ipHeaderLen : Nat := 20

def isLocalIp (ip : BitVec 32) : Bool := ip.extractLsb' 0 8 == 0x7F#8 || s.nics.contains ip

/-- The ring holds one packet less than it has entries; a full ring drops. -/
def loopbackEnqueue (d : Datagram) : Stack :=
  if loMaxPkt < ipHeaderLen + d.packet.length ∨ loQueueLen ≤ s.ring.length + 1 then s
  else {s with ring := s.ring ++ [d]}

def ipSend (dstIp : BitVec 32) (packet : List Byte) : Stack × Bool :=
  if s.isLocalIp dstIp then
    let (s, ok) := s.kmalloc
    let srcIp := if s.nics.contains dstIp then dstIp else loopbackIp
    if ok then (s.loopbackEnqueue ⟨srcIp, dstIp, packet⟩, true) else (s, false)
  else
    match s.nics with
    | [] => (s, false)
    | srcIp :: _ =>
      if s.resolves dstIp then
        let (s, ok) := s.kmalloc
        if ok then ({s with wire := s.wire ++ [⟨srcIp, dstIp, packet⟩]}, true) else (s, false)
      else (s, false)

end Stack

/-! ### Sending -/

/-- The segments that take up sequence numbers. -/
def consumes (flags : BitVec 6) (data : List Byte) : Bool :=
  flags &&& flagSyn != 0#6 || flags &&& flagFin != 0#6 || data != []

def seqLen (flags : BitVec 6) (data : List Byte) : BitVec 32 :=
  (if flags &&& flagSyn != 0#6 then 1#32 else 0#32) +
    (if flags &&& flagFin != 0#6 then 1#32 else 0#32) + BitVec.ofNat 32 data.length

def Conn.packet (c : Conn) (flags : BitVec 6) (data : List Byte) : List Byte :=
  encode c.srcIp c.dstIp 0x2000#16 ⟨c.srcPort, c.dstPort, c.seq, c.ack, flags, data⟩

/-- A connection after `send_segment`: a segment that takes up sequence numbers replaces the one
in the retransmission buffer, if there is memory for the copy (`copied`). -/
def Conn.sent (c : Conn) (flags : BitVec 6) (data : List Byte) (now : BitVec 32) (copied : Bool) :
    Conn := { c with
    seq := if flags &&& flagRst != 0#6 then c.seq else c.seq + seqLen flags data
    rt := if consumes flags data then
        if copied then
          some ⟨c.packet flags data, c.seq + seqLen flags data, now, tcpRtoInitial, 0⟩
        else none
      else c.rt }

namespace Stack

def sendSegment (s : Stack) (i : ConnId) (flags : BitVec 6) (data : List Byte) : Stack × Bool :=
  let (s, ok) := s.kmalloc
  if !ok then (s, false)
  else
    let c := s.conns i
    let (s, copied) := if consumes flags data then s.kmalloc else (s, true)
    let (s, sent) :=
      if 0 < s.dropTx && consumes flags data then ({s with dropTx := s.dropTx - 1}, true)
      else s.ipSend c.dstIp (c.packet flags data)
    (s.setConn i (c.sent flags data s.now copied), sent)

end Stack

/-! ### Timers -/

/-- The timer doubles, up to a limit. -/
def Outstanding.again (r : Outstanding) (now : BitVec 32) : Outstanding :=
  let rto := r.rto * 2#32
  { r with
    retries := r.retries + 1
    rto := if tcpRtoMax < rto then tcpRtoMax else rto
    sentTick := now }

namespace Stack

variable (s : Stack) (i : ConnId)

/-- The body of `tcp_tick`: the buffered segment of a connection is sent again when it is due, and
after too many times the connection is given up. -/
def tickConn : Stack :=
  let c := s.conns i
  match c.rt with
  | none => s
  | some r =>
    if !c.active || (s.now - (r.sentTick + r.rto)).slt 0#32 then s
    else if tcpMaxRetries ≤ r.retries then
      let gone := {c with rt := none, recvBuf := [], active := false, state := .closed}
      (s.setConn i gone).record (.close i)
    else
      ((s.setConn i {c with rt := some (r.again s.now)}).ipSend c.dstIp r.packet).1

def tcpTick : Stack := (List.finRange tcpMaxConns).foldl tickConn s

/-! ### Opening and closing -/

def findSlot : Option ConnId := (List.finRange tcpMaxConns).find? fun i => !(s.conns i).active

/-- The lookup for a packet from `dstIp:dstPort` to our `srcPort`; it does not look at our
address. -/
def findConnByTuple (dstIp : BitVec 32) (srcPort dstPort : BitVec 16) : Option ConnId :=
  (List.finRange tcpMaxConns).find? fun i =>
    let c := s.conns i
    c.active && c.state != .listen && c.dstIp == dstIp && c.srcPort == srcPort &&
      c.dstPort == dstPort

def findListener (port : BitVec 16) : Option ConnId :=
  (List.finRange tcpMaxConns).find? fun i =>
    let c := s.conns i
    c.active && c.state == .listen && c.srcPort == port

/-- The address to connect from: `lo`'s for a loopback destination, else the first card's. -/
def sourceIp (dstIp : BitVec 32) : Option (BitVec 32) :=
  if dstIp.extractLsb' 0 8 == 0x7F#8 then some loopbackIp else s.nics.head?

def tcpConnect (dstIp : BitVec 32) (dstPort srcPort : BitVec 16) : Stack × Option ConnId :=
  match s.findSlot, s.sourceIp dstIp with
  | some slot, some srcIp =>
    let c : Conn :=
      ⟨true, .synSent, false, srcIp, dstIp, srcPort, dstPort, s.nextIsn, 0#32, [], none⟩
    let s := (s.setConn slot c).record (.connect slot)
    let s := {s with nextIsn := s.nextIsn + 1000#32}
    ((s.sendSegment slot flagSyn []).1, some slot)
  | _, _ => (s, none)

def tcpListen (port : BitVec 16) : Stack × Option ConnId :=
  match s.findSlot with
  | none => (s, none)
  | some slot =>
    let c : Conn := ⟨true, .listen, false, 0#32, 0#32, port, 0#16, 0#32, 0#32, [], none⟩
    ((s.setConn slot c).record (.listen slot), some slot)

/-- A connection that `tcp_accept` hands out for the listener `l`. -/
def acceptable (l i : ConnId) : Bool :=
  let c := s.conns i
  i != l && c.active && !c.accepted && c.srcPort == (s.conns l).srcPort &&
    (c.state == .established || c.state == .closeWait)

def tcpAccept (l : ConnId) : Stack × Option ConnId :=
  if !(s.conns l).active || (s.conns l).state != .listen then (s, none)
  else
    match (List.finRange tcpMaxConns).find? (s.acceptable l) with
    | none => (s, none)
    | some i => ((s.setConn i {s.conns i with accepted := true}).record (.accept i), some i)

/-! ### Data -/

def tcpSend (data : List Byte) : Stack × Bool :=
  let c := s.conns i
  if !c.active || (c.state != .established && c.state != .closeWait) then (s, false)
  else s.sendSegment i (flagAck ||| flagPsh) data

/-- `none` is an error, and `[]` no data. -/
def tcpRecv (maxLen : Nat) : Stack × Option (List Byte) :=
  let c := s.conns i
  if !c.active then (s, none)
  else (s.setConn i {c with recvBuf := c.recvBuf.drop maxLen}, some (c.recvBuf.take maxLen))

/-- `tcp_state`: an unused entry is closed. -/
def tcpState : TcpState := if (s.conns i).active then (s.conns i).state else .closed

/-- The FIN is sent, and then the connection is gone at once, with its buffers. -/
def tcpClose : Stack :=
  let c := s.conns i
  if !c.active then s
  else
    let s :=
      match c.state with
      | .established =>
        ((s.setConn i {c with state := .finWait1}).sendSegment i (flagFin ||| flagAck) []).1
      | .closeWait =>
        ((s.setConn i {c with state := .lastAck}).sendSegment i (flagFin ||| flagAck) []).1
      | _ => s
    let gone := {s.conns i with recvBuf := [], rt := none, active := false, state := .closed}
    (s.setConn i gone).record (.close i)

end Stack

/-! ### Receiving -/

/-- What an acknowledgement does first, whatever else the segment carries: it clears the
retransmission buffer and completes a passive open. -/
def Conn.acked (c : Conn) (seg : Segment) : Conn :=
  if seg.has flagAck then
    { c with
      rt := c.rt.filter fun r => (seg.ack - r.ackSeq).slt 0#32
      state := if c.state = .synRcvd then .established else c.state }
  else c

/-- A connection after a segment, and whether the segment is answered with an ACK. Data is taken
as it comes; its sequence number is not compared with what was received. -/
def Conn.receive (c : Conn) (seg : Segment) : Conn × Bool :=
  let c := c.acked seg
  if seg.payload ≠ [] ∧ seg.has flagAck = true then
    ({ c with
        ack := seg.seq + BitVec.ofNat 32 seg.payload.length
        recvBuf := c.recvBuf ++ seg.payload }, true)
  else if seg.has flagSyn && seg.has flagAck then
    if c.state = .synSent then ({c with ack := seg.seq + 1#32, state := .established}, true)
    else (c, false)
  else if seg.has flagFin then
    if c.state = .established then ({c with ack := seg.seq + 1#32, state := .closeWait}, true)
    else if c.state = .finWait1 then ({c with ack := seg.seq + 1#32, state := .timeWait}, true)
    else (c, false)
  else (c, false)

namespace Stack

variable (s : Stack)

/-- A segment for no connection: an RST is ignored, a SYN to a listening port opens a child, and
anything else is answered with an RST. -/
def unmatched (seg : Segment) (srcIp dstIp : BitVec 32) : Stack :=
  if seg.has flagRst then s
  else
    match if seg.has flagSyn && !seg.has flagAck then s.findListener seg.dstPort else none,
        s.findSlot with
    | some _, some slot =>
      let c : Conn := ⟨true, .synRcvd, false, dstIp, srcIp, seg.dstPort, seg.srcPort, s.nextIsn,
        seg.seq + 1#32, [], none⟩
      let s := (s.setConn slot c).record (.spawn slot seg.dstPort)
      let s := {s with nextIsn := s.nextIsn + 1000#32}
      (s.sendSegment slot (flagSyn ||| flagAck) []).1
    | _, _ =>
      (s.ipSend srcIp (encode dstIp srcIp 0#16
        ⟨seg.dstPort, seg.srcPort, 0#32, seg.seq + 1#32, flagRst ||| flagAck, []⟩)).1

def handleSegment (seg : Segment) (srcIp dstIp : BitVec 32) : Stack :=
  match s.findConnByTuple srcIp seg.dstPort seg.srcPort with
  | none => s.unmatched seg srcIp dstIp
  | some i =>
    let (c, reply) := (s.conns i).receive seg
    let s := s.setConn i c
    if reply then (s.sendSegment i flagAck []).1 else s

def tcpHandlePacket (packet : List Byte) (srcIp dstIp : BitVec 32) : Stack :=
  match parse packet with
  | none => s
  | some seg => s.handleSegment seg srcIp dstIp

/-- A packet for one of our addresses, or for every host. -/
def forUs (d : Datagram) : Bool :=
  d.dstIp == loopbackIp || s.nics.contains d.dstIp || d.dstIp == 0xFFFFFFFF#32

/-- `ip_handle_packet` for TCP: packets for other hosts are ignored. -/
def ipHandlePacket (d : Datagram) : Stack :=
  if s.forUs d then s.tcpHandlePacket d.packet d.srcIp d.dstIp else s

/-- One turn of `ip_loopback_poll`. -/
def deliver : Stack :=
  match s.ring with
  | [] => s
  | d :: rest => {s with ring := rest}.ipHandlePacket d

/-- The stack after `tcp_init`, on a machine with these cards. -/
def boot (nics : List (BitVec 32)) (resolves : BitVec 32 → Bool) (memory : Nat → Bool) : Stack :=
  ⟨fun _ => .unused, 1000#32, 0, 0#32, nics, resolves, memory, 0, [], [], []⟩

end Stack

/-! ### Runs -/

/-- What the rest of the kernel and the network do to the stack: the calls of `tcp.c`, packets
that come in from a card or off the loopback ring, and time that passes. -/
inductive Op
  | connect (dstIp : BitVec 32) (dstPort srcPort : BitVec 16)
  | listen (port : BitVec 16)
  | accept (l : ConnId)
  | send (i : ConnId) (data : List Byte)
  | recv (i : ConnId) (maxLen : Nat)
  | close (i : ConnId)
  | tick
  | clock (now : BitVec 32)
  | packet (d : Datagram)
  | deliver
  | debugDrop (n : Nat)

def Stack.step (s : Stack) : Op → Stack
  | .connect dstIp dstPort srcPort => (s.tcpConnect dstIp dstPort srcPort).1
  | .listen port => (s.tcpListen port).1
  | .accept l => (s.tcpAccept l).1
  | .send i data => (s.tcpSend i data).1
  | .recv i maxLen => (s.tcpRecv i maxLen).1
  | .close i => s.tcpClose i
  | .tick => s.tcpTick
  | .clock now => {s with now}
  | .packet d => s.ipHandlePacket d
  | .deliver => s.deliver
  | .debugDrop n => {s with dropTx := n}

end Nyx.Net
