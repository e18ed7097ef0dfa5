import Nyx.Net.Demux
import Nyx.Net.Track

/-! The transitions of a connection (`tcp_handle_packet`), beside those of the protocol.

A segment goes through a chain of branches: data first, then a SYN with an ACK, then a FIN. None
compares an acknowledgement with the initial sequence number or looks at an RST, and a FIN that
comes with data is not seen. -/
namespace Nyx.Net
open Nyx.Lib Function Stack

variable (c : Conn) (seg : Segment)

def Conn.opening : Bool := c.state == .synSent || c.state == .synRcvd

/-- An RST is believed if it acknowledges the SYN, and later if it is in the window that
`send_segment` advertises. -/
def Conn.believes (iss : BitVec 32) (seg : Segment) : Bool :=
  seg.has flagRst &&
    if c.state = .synSent then seg.has flagAck && seg.ack == iss + 1#32
    else seg.seq - c.ack < 0x2000#32

/-- The connection `c`, which started with `iss`, becomes `c'` with a segment as in the protocol. -/
structure Proper (iss : BitVec 32) (c : Conn) (seg : Segment) (c' : Conn) : Prop where
  opens : c.opening = true → c'.state = .established → seg.has flagAck = true ∧ seg.ack = iss + 1#32
  ends : c.state = .established → seg.has flagFin = true → seg.seq = c.ack →
    c'.state = .closeWait ∧ c'.ack = seg.seq + BitVec.ofNat 32 seg.payload.length + 1#32
  aborts : c.believes iss seg = true → c'.active = false

def Conn.completes : Bool :=
  seg.has flagAck &&
    if c.state = .synRcvd then !seg.payload.isEmpty || seg.has flagSyn || !seg.has flagFin
    else c.state == .synSent && seg.payload.isEmpty && seg.has flagSyn

/-- The branch for a FIN is reached, and there is no data to count. -/
def Segment.Ends : Prop :=
  ¬ (seg.has flagAck = true ∧ (seg.payload ≠ [] ∨ seg.has flagSyn = true)) ∧
    BitVec.ofNat 32 seg.payload.length = 0#32

structure Regular (iss : BitVec 32) (c : Conn) (seg : Segment) : Prop where
  acks : c.opening = true → c.completes seg = true → seg.ack = iss + 1#32
  ends : c.state = .established → seg.has flagFin = true → seg.seq = c.ack → seg.Ends
  stays : c.believes iss seg = false

section
variable {iss : BitVec 32} {c : Conn} {seg : Segment}

theorem receive_established (ho : c.opening = true) :
    (c.receive seg).1.state = .established ↔ c.completes seg = true := by
  simp only [Conn.opening, Bool.or_eq_true, beq_iff_eq] at ho
  rcases ho with ho | ho <;> cases hack : seg.has flagAck <;> cases hsyn : seg.has flagSyn <;>
    cases hfin : seg.has flagFin <;> cases hp : seg.payload <;>
    simp [Conn.receive, Conn.acked, Conn.completes, ho, hack, hsyn, hfin, hp]

theorem receive_closeWait (he : c.state = .established) (hfin : seg.has flagFin = true) :
    (c.receive seg).1.state = .closeWait ∧
      (c.receive seg).1.ack = seg.seq + BitVec.ofNat 32 seg.payload.length + 1#32 ↔ seg.Ends := by
  cases hack : seg.has flagAck <;> cases hsyn : seg.has flagSyn <;> cases hp : seg.payload <;>
    simp [Conn.receive, Conn.acked, Segment.Ends, he, hack, hsyn, hfin, hp]

theorem proper_iff (ha : c.active = true) :
    Proper iss c seg (c.receive seg).1 ↔ Regular iss c seg := by
  have hactive : (c.receive seg).1.active = true := (kin_receive c seg).active.trans ha
  constructor
  · intro h
    refine ⟨fun ho hc => (h.opens ho ((receive_established ho).mpr hc)).2, fun he hfin hseq => ?_, ?_⟩
    · exact (receive_closeWait he hfin).mp (h.ends he hfin hseq)
    · exact Bool.eq_false_iff.mpr fun hr => absurd (hactive.symm.trans (h.aborts hr)) (by decide)
  · intro h
    refine ⟨fun ho he => ?_, fun he hfin hseq => ?_, fun hr => ?_⟩
    · have hc := (receive_established ho).mp he
      refine ⟨?_, h.acks ho hc⟩
      rw [Conn.completes, Bool.and_eq_true] at hc
      exact hc.1
    · exact (receive_closeWait he hfin).mpr (h.ends he hfin hseq)
    · exact absurd (hr.symm.trans h.stays) (by decide)

end

/-- A matching segment moves a connection as the protocol has it exactly if an ACK that opens it
acknowledges the SYN, a FIN in order comes without data and without a SYN and an ACK, and no RST
is to be believed. -/
theorem transitions_follow (s : Stack) (i : ConnId) (iss : BitVec 32) (packet : List Byte)
    (seg : Segment) (srcIp dstIp : BitVec 32) (hparse : parse packet = some seg)
    (hmatch : s.findConnByTuple srcIp seg.dstPort seg.srcPort = some i) :
    Proper iss (s.conns i) seg ((s.tcpHandlePacket packet srcIp dstIp).conns i) ↔
      Regular iss (s.conns i) seg := by
  rw [tcpHandlePacket, hparse]
  dsimp only
  rw [handleSegment_found dstIp hmatch, update_self]
  exact proper_iff (findConnByTuple_matched hmatch).1

/-- What the server of `dialEcho` says next to its client, whose connection started with 1000. -/
def echoSegment (ack : BitVec 32) (flags : BitVec 6) (data : List Byte) : Segment :=
  ⟨7#16, 40000#16, ((run step loopbackOnly dialEcho).conns 1).ack, ack, flags, data⟩

/-- A FIN on its own. -/
theorem transitions_follow_fin :
    let s := run step loopbackOnly dialEcho
    let seg := echoSegment 1001#32 (flagFin ||| flagAck) []
    let packet := encode loopbackIp loopbackIp 8192#16 seg
    s.findConnByTuple loopbackIp seg.dstPort seg.srcPort = some 1 ∧
      Proper 1000#32 (s.conns 1) seg ((s.tcpHandlePacket packet loopbackIp loopbackIp).conns 1) := by
  intro s seg packet
  have hmatch : s.findConnByTuple loopbackIp seg.dstPort seg.srcPort = some 1 := by decide +kernel
  refine ⟨hmatch, (transitions_follow s 1 _ packet seg _ _ (parse_encode ..) hmatch).mpr ?_⟩
  exact ⟨by decide +kernel, fun _ _ _ => ⟨by decide +kernel, by decide +kernel⟩, by decide +kernel⟩

/-- A SYN with an ACK of nothing that was sent opens the connection that was just dialled; a FIN
with a byte of data leaves the connection established, and an RST in order leaves it active. -/
theorem transitions_ignore :
    let s := run step loopbackOnly dialEcho
    let dialled := run step loopbackOnly [.connect loopbackIp 7#16 40000#16]
    let answer (s : Stack) (seg : Segment) :=
      s.tcpHandlePacket (encode loopbackIp loopbackIp 8192#16 seg) loopbackIp loopbackIp
    let reset := echoSegment 1001#32 (flagRst ||| flagAck) []
    ((dialled.conns 0).state = .synSent ∧ (dialled.conns 0).seq = 1000#32 + 1#32 ∧
        ((answer dialled (echoSegment 5#32 (flagSyn ||| flagAck) [])).conns 0).state =
          .established) ∧
      ((s.conns 1).state = .established ∧
        ((answer s (echoSegment 1001#32 (flagFin ||| flagAck) [104#8])).conns 1).state =
          .established) ∧
      (s.conns 1).believes 1000#32 reset = true ∧ ((answer s reset).conns 1).active = true := by
  decide +kernel

end Nyx.Net
