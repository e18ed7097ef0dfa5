import Nyx.Net.Demux
import Nyx.Net.Track

/-! What is sent and not acknowledged.

A connection has one retransmission buffer, and every segment that takes up sequence numbers goes
into it, whatever is in it. So an unacknowledged segment stays only if nothing more is sent before
its acknowledgement (`Careful`); then it is there until it is acknowledged or sent too often, and
`tcp_tick` sends it again when it is due (`pending_armed`). -/
namespace Nyx.Net
open Lib Stack List Outstanding

/-- A segment that was transmitted, and the sequence number after its last one. -/
structure Pending where
  packet : List Byte
  upTo : BitVec 32
deriving DecidableEq, Repr

variable (c : Conn) (r : Outstanding)

def Outstanding.pending : Pending := ⟨r.packet, r.ackSeq⟩

def Outstanding.due (now : BitVec 32) : Bool :=
  !(now - (r.sentTick + r.rto)).slt 0#32

def Conn.hello : Pending :=
  let c₀ : Conn := {c with seq := c.seq - 1#32}
  ⟨c₀.packet (if c.state = .synSent then flagSyn else flagSyn ||| flagAck) [], c.seq⟩

def Conn.sendable : Bool := c.state == .established || c.state == .closeWait

/-- The data or the FIN that an open connection `i` transmits. -/
def Conn.speaks (i : ConnId) : Op → Option Pending
  | .send j data =>
    if j = i ∧ c.sendable ∧ data ≠ [] then
      some ⟨c.packet (flagAck ||| flagPsh) data, c.seq + BitVec.ofNat 32 data.length⟩
    else none
  | .close j =>
    if j = i ∧ c.sendable then some ⟨c.packet (flagFin ||| flagAck) [], c.seq + 1#32⟩ else none
  | _ => none

namespace Stack

variable (s : Stack) (i : ConnId)

/-- The SYN, data or FIN that an operation transmits on connection `i`. -/
def transmits (op : Op) : Option Pending :=
  let c' := (s.step op).conns i
  if (s.conns i).active then (s.conns i).speaks i op
  else if c'.matched then some c'.hello
  else none

/-- What an operation leaves unacknowledged of the segments that were sent before. -/
def unacked (op : Op) (sent : List Pending) : List Pending :=
  match s.segmentFor i op with
  | some seg =>
    if seg.has flagAck then sent.filter fun o => (seg.ack - o.upTo).slt 0#32 else sent
  | none => sent

def exhausted : Op → Bool
  | .tick => (s.conns i).rt.any fun r => r.due s.now && decide (tcpMaxRetries ≤ r.retries)
  | _ => false

/-- `tcp_tick` hands the packet to `ip_send` when it is connection `i`'s turn. -/
def Resends (packet : List Byte) : Prop :=
  ∃ before after, List.finRange tcpMaxConns = before ++ i :: after ∧
    ∃ c, (before.foldl tickConn s).tickConn i =
      (((before.foldl tickConn s).setConn i c).ipSend (s.conns i).dstIp packet).1

end Stack

/-- A step of the stack, with the unacknowledged segments of every connection. -/
def tracking (p : Stack × (ConnId → List Pending)) (op : Op) : Stack × (ConnId → List Pending) :=
  (p.1.step op, fun i =>
    if p.1.exhausted i op then []
    else p.1.unacked i op (p.2 i) ++ (p.1.transmits i op).toList)

/-- Nothing is sent on a connection while something else is unacknowledged, and a connection is
closed only when there is nothing to send or to wait for. -/
def Careful (p : Stack × (ConnId → List Pending)) (op : Op) : Prop :=
  (∀ i, p.1.transmits i op ≠ none → p.2 i = []) ∧
    ∀ i, op = .close i → p.1.transmits i op = none ∧ p.2 i = []

/-- All that is unacknowledged is in the buffer. -/
def Armed (c : Conn) (sent : List Pending) : Prop :=
  (c.active = false → sent = []) ∧ ∀ o ∈ sent, c.rt.map Outstanding.pending = some o

section
variable {s s' : Stack} {i : ConnId} {c : Conn} {op : Op} {sent : List Pending} {o : Pending}

/-! ### The buffer of one connection -/

theorem Armed.nil : Armed c [] := ⟨fun _ => rfl, fun _ ho => nomatch ho⟩

theorem Armed.one (ha : c.active = true) (hrt : c.rt.map pending = some o) : Armed c [o] := by
  refine ⟨fun hx => absurd (ha.symm.trans hx) nofun, fun o' ho => ?_⟩
  rw [mem_singleton.mp ho, hrt]

/-- Only the buffer matters. -/
theorem Armed.congr {c' : Conn} (h : Armed c sent) (ha : c'.active = c.active)
    (hrt : c'.rt.map pending = c.rt.map pending) : Armed c' sent :=
  ⟨fun hx => h.1 (ha ▸ hx), fun o ho => hrt.trans (h.2 o ho)⟩

/-- An acknowledgement clears from the buffer what it covers. -/
theorem Armed.acked {seg : Segment} (h : Armed c sent) (hack : seg.has flagAck = true) :
    Armed (c.acked seg) (sent.filter fun o => (seg.ack - o.upTo).slt 0#32) := by
  rw [Conn.acked, if_pos hack]
  refine ⟨fun hx => ?_, fun o ho => ?_⟩
  · rw [h.1 hx, filter_nil]
  obtain ⟨ho, hopen⟩ := mem_filter.mp ho
  obtain ⟨r, hr, rfl⟩ := Option.map_eq_some_iff.mp (h.2 o ho)
  rw [show c.rt.filter (fun r => (seg.ack - r.ackSeq).slt 0#32) = some r by
    rw [hr, Option.filter_some]
    exact if_pos hopen]
  rfl

/-- The rest of what a segment does leaves the buffer alone. -/
theorem receive_rt (c : Conn) (seg : Segment) : (c.receive seg).1.rt = (c.acked seg).rt := by
  rw [Conn.receive]
  split_ifs <;> rfl

theorem Armed.received {seg : Segment} (h : Armed c sent) (hseg : s.segmentFor i op = some seg) :
    Armed (c.receive seg).1 (s.unacked i op sent) := by
  rw [unacked, hseg]
  dsimp only
  split
  case isTrue hack =>
    refine (h.acked hack).congr ?_ (congrArg _ (receive_rt c seg))
    rw [(kin_receive c seg).active, (kin_acked c seg).active]
  case isFalse hack =>
    refine h.congr (kin_receive c seg).active ?_
    rw [receive_rt, Conn.acked, if_neg hack]

/-- The timer keeps the buffer, up to the last retry. -/
theorem Armed.ticked (h : Armed c sent) (now : BitVec 32)
    (hmore : (c.rt.any fun r => r.due now && decide (tcpMaxRetries ≤ r.retries)) = false) :
    Armed (c.ticked now) sent := by
  unfold Conn.ticked
  split
  · exact h
  case h_2 r hr =>
    split
    · exact h
    case isFalse hdue =>
      split
      case isTrue hlast =>
        rw [hr] at hmore
        simp [due, hlast] at hmore hdue
        simp [hdue.2] at hmore
      case isFalse =>
        refine h.congr rfl ?_
        rw [hr]
        rfl

/-! ### New segments -/

/-- With memory for the copy, a segment that takes up sequence numbers is in the buffer. -/
theorem sent_rt (c : Conn) {flags : BitVec 6} {data : List Byte} (now : BitVec 32)
    (hcons : consumes flags data = true) : (c.sent flags data now true).rt.map pending =
      some ⟨c.packet flags data, c.seq + seqLen flags data⟩ := by
  rw [Conn.sent, if_pos hcons, if_pos rfl]
  rfl

theorem hello_sent (c : Conn) (now : BitVec 32) {flags : BitVec 6}
    (hflags : flags = if c.state = .synSent then flagSyn else flagSyn ||| flagAck) :
    (c.sent flags [] now true).rt.map pending = some (c.sent flags [] now true).hello := by
  have hsyn : consumes flags [] = true ∧ seqLen flags [] = 1#32 ∧ flags &&& flagRst = 0#6 := by
    rw [hflags]
    split <;> decide
  rw [sent_rt c now hsyn.1, hsyn.2.1, Conn.hello]
  have hseq : (c.sent flags [] now true).seq = c.seq + 1#32 := by
    rw [Conn.sent, hsyn.2.1, hsyn.2.2]
    rfl
  have hstate : (c.sent flags [] now true).state = c.state := rfl
  rw [hseq, hstate, ← hflags, BitVec.add_sub_cancel]
  rfl

theorem tcpSend_self (hmem : ∀ n, s.memory n = true) (ha : (s.conns i).active = true)
    (data : List Byte) : (s.tcpSend i data).1.conns i =
      if (s.conns i).sendable then (s.conns i).sent (flagAck ||| flagPsh) data s.now true
      else s.conns i := by
  have hguard : (!(s.conns i).active || ((s.conns i).state != .established &&
      (s.conns i).state != .closeWait)) = !(s.conns i).sendable := by
    rw [ha, Conn.sendable, Bool.not_or]
    rfl
  rw [tcpSend, hguard]
  cases (s.conns i).sendable with
  | false => rfl
  | true => exact sendSegment_self hmem _ data

theorem unacked_nil : s.unacked i op [] = [] := by
  unfold unacked
  split
  · exact ite_self _
  · rfl

/-- The first segment of a connection is in its buffer. -/
theorem armed_opened (hmem : ∀ n, s.memory n = true) (ha : (s.conns i).active = false) :
    Armed ((s.step op).conns i) (s.transmits i op).toList := by
  rw [transmits, ha, if_neg Bool.false_ne_true]
  have hopened := opened_step hmem ha op
  generalize (s.step op).conns i = c at hopened ⊢
  cases hopened with
  | unused =>
    rw [if_neg (by simp [Conn.matched, ha])]
    exact .nil
  | dialled => exact .one rfl (hello_sent _ _ rfl)
  | listening => exact .nil
  | spawned => exact .one rfl (hello_sent _ _ rfl)

theorem armed_send (hmem : ∀ n, s.memory n = true) (ha : (s.conns i).active = true)
    {data : List Byte} (h : Armed (s.conns i) sent)
    (hone : s.transmits i (.send i data) ≠ none → sent = []) :
    Armed ((s.step (.send i data)).conns i) (sent ++ (s.transmits i (.send i data)).toList) := by
  have htrans : s.transmits i (.send i data) = if (s.conns i).sendable ∧ data ≠ [] then
      some ⟨(s.conns i).packet (flagAck ||| flagPsh) data,
        (s.conns i).seq + BitVec.ofNat 32 data.length⟩ else none := by
    rw [transmits, if_pos ha, Conn.speaks]
    simp only [true_and]
  rw [Stack.step, tcpSend_self hmem ha]
  by_cases hs : (s.conns i).sendable ∧ data ≠ []
  · rw [if_pos hs] at htrans
    rw [hone (by simp [htrans]), htrans, if_pos hs.1]
    refine .one ha ((sent_rt _ _ ?_).trans ?_)
    · simp [consumes, hs.2]
    · rw [show seqLen (flagAck ||| flagPsh) data = BitVec.ofNat 32 data.length from
        BitVec.zero_add _]
  · rw [if_neg hs] at htrans
    rw [htrans, Option.toList_none, append_nil]
    split
    case isTrue hsend =>
      have hdata : data = [] := by
        by_contra hx
        exact hs ⟨hsend, hx⟩
      subst hdata
      exact h.congr rfl rfl
    case isFalse => exact h

/-! ### Whole runs -/

theorem transmits_none (ha : (s.conns i).active = true) (hsend : ∀ data, op ≠ .send i data)
    (hclose : op ≠ .close i) : s.transmits i op = none := by
  rw [transmits, if_pos ha]
  cases op with
  | send j data =>
    refine if_neg fun hx => hsend data ?_
    rw [hx.1]
  | close j =>
    refine if_neg fun hx => hclose ?_
    rw [hx.1]
  | _ => rfl

/-- What an operation does to a connection and to the list of its unacknowledged segments. -/
theorem Armed.step (hmem : ∀ n, s.memory n = true) (h : Armed (s.conns i) sent)
    (hone : s.transmits i op ≠ none → sent = [])
    (hclose : op = .close i → s.transmits i op = none ∧ sent = []) :
    Armed ((s.step op).conns i) (if s.exhausted i op then []
      else s.unacked i op sent ++ (s.transmits i op).toList) := by
  split
  · exact .nil
  case isFalse hmore =>
  cases ha : (s.conns i).active with
  | false =>
    rw [h.1 ha, unacked_nil]
    exact armed_opened hmem ha
  | true =>
    by_cases hsend : ∃ data, op = .send i data
    · obtain ⟨data, rfl⟩ := hsend
      exact armed_send hmem ha h hone
    by_cases hcl : op = .close i
    · rw [(hclose hcl).1, (hclose hcl).2, unacked_nil]
      exact .nil
    rw [transmits_none ha (fun data hx => hsend ⟨data, hx⟩) hcl, Option.toList_none, append_nil]
    have hsees := sees_step ha op
    generalize (s.step op).conns i = c at hsees
    cases hsees with
    | same _ hquiet =>
      rw [unacked, hquiet]
      exact h
    | accepted => exact h.congr rfl rfl
    | sent data => exact absurd ⟨data, rfl⟩ hsend
    | read => exact h.congr rfl rfl
    | closed => exact absurd rfl hcl
    | received _ seg hseg => exact h.received hseg
    | ticked => exact h.ticked s.now (Bool.eq_false_iff.mpr hmore)

theorem Stack.Resends.of_due {r : Outstanding} (ha : (s.conns i).active = true)
    (hr : (s.conns i).rt = some r) (hdue : r.due s.now = true) (hmore : r.retries < tcpMaxRetries) :
    s.Resends i r.packet := by
  obtain ⟨before, after, hsplit⟩ := append_of_mem (mem_finRange i)
  have hnodup := nodup_finRange tcpMaxConns
  rw [hsplit, nodup_append] at hnodup
  -- the connections before it have had their turns, and it has not
  have hi : i ∉ before := fun hx => hnodup.2.2 i hx i mem_cons_self rfl
  obtain ⟨hconn, hnow⟩ := foldl_tickConn i before hnodup.1 s
  rw [if_neg hi] at hconn
  refine ⟨before, after, hsplit, {s.conns i with rt := some (r.again s.now)}, ?_⟩
  generalize before.foldl tickConn s = s₁ at hconn hnow ⊢
  rw [tickConn, hconn]
  dsimp only
  rw [hr]
  dsimp only
  rw [if_neg (by simpa [ha, hnow, due] using hdue), if_neg (Nat.not_le.mpr hmore), hnow]

/-- Everywhere there is memory and what is unacknowledged is in its connection's buffer. -/
def AllArmed (p : Stack × (ConnId → List Pending)) : Prop :=
  (∀ n, p.1.memory n = true) ∧ ∀ i, Armed (p.1.conns i) (p.2 i)

theorem AllArmed.step {p : Stack × (ConnId → List Pending)} (h : AllArmed p)
    (hr : Careful p op) : AllArmed (tracking p op) := by
  refine ⟨fun n => ?_, fun i => ?_⟩
  · show (p.1.step op).memory n = true
    by_cases hclock : ∃ now, op = .clock now
    · obtain ⟨now, rfl⟩ := hclock
      exact h.1 n
    rw [(same_step p.1 op fun now hx => hclock ⟨now, hx⟩).memory]
    exact h.1 n
  · exact (h.2 i).step h.1 (hr.1 i) (hr.2 i)

/-- A SYN, data or FIN that was transmitted and is not acknowledged is in the buffer of its
connection, where `tcp_tick` finds it when it is due. -/
theorem pending_armed {nics : List (BitVec 32)} {resolves : BitVec 32 → Bool}
    {memory : Nat → Bool} {ops : List Op} (hmem : ∀ n, memory n = true)
    (hr : Admissible tracking Careful (Stack.boot nics resolves memory, fun _ => []) ops) :
    let p := run tracking (Stack.boot nics resolves memory, fun _ => []) ops
    ∀ i, ∀ o ∈ p.2 i, (p.1.conns i).active = true ∧ ∃ r, (p.1.conns i).rt = some r ∧
      r.packet = o.packet ∧ r.ackSeq = o.upTo ∧
      ∀ now, r.due now = true → r.retries < tcpMaxRetries → {p.1 with now}.Resends i o.packet := by
  intro p i o ho
  have hall : AllArmed p := by
    refine run_invariant (P := AllArmed) (fun _ _ h hop => h.step hop) _ ops ⟨hmem, ?_⟩ hr
    exact fun _ => .nil
  have ha : (p.1.conns i).active = true := by
    by_contra hx
    rw [(hall.2 i).1 (Bool.eq_false_iff.mpr hx)] at ho
    exact nomatch ho
  obtain ⟨r, hrt, rfl⟩ := Option.map_eq_some_iff.mp ((hall.2 i).2 o ho)
  refine ⟨ha, r, hrt, rfl, rfl, fun now hdue hmore => ?_⟩
  exact Stack.Resends.of_due (s := {p.1 with now}) ha hrt hdue hmore

end

/-- The client of `dialEcho` sends one byte, and its segment is ready to be sent again. -/
theorem pending_armed_echo :
    let p := run tracking (loopbackOnly, fun _ => []) (dialEcho ++ [.send 1 [104#8]])
    ∃ o ∈ p.2 1, ∃ r, (p.1.conns 1).rt = some r ∧ r.packet = o.packet ∧
      ∀ now, r.due now = true → r.retries < tcpMaxRetries → {p.1 with now}.Resends 1 o.packet := by
  intro p
  have hr : Admissible tracking Careful (loopbackOnly, fun _ => [])
      (dialEcho ++ [.send 1 [104#8]]) :=
    ⟨⟨by decide +kernel, nofun⟩, ⟨by decide +kernel, nofun⟩, ⟨by decide +kernel, nofun⟩,
      ⟨by decide +kernel, nofun⟩, ⟨by decide +kernel, nofun⟩, ⟨by decide +kernel, nofun⟩, trivial⟩
  have hsome : p.2 1 ≠ [] := by decide +kernel
  obtain ⟨o, ho⟩ := List.exists_mem_of_ne_nil _ hsome
  obtain ⟨-, r, hrt, hpacket, -, hresends⟩ := pending_armed (fun _ => rfl) hr 1 o ho
  exact ⟨o, ho, r, hrt, hpacket, hresends⟩

/-- Two segments without an acknowledgement between them: the first is in no buffer any more. And
the FIN of a connection that is closed never is in one. -/
theorem pending_overwritten :
    let p := run tracking (loopbackOnly, fun _ => [])
      (dialEcho ++ [.send 1 [104#8], .send 1 [105#8]])
    let q := run tracking (loopbackOnly, fun _ => []) (dialEcho ++ [.close 1])
    ((p.2 1).length = 2 ∧ ∃ o ∈ p.2 1, ((p.1.conns 1).rt.map Outstanding.pending) ≠ some o) ∧
      (q.2 1).length = 1 ∧ (q.1.conns 1).rt = none ∧ (q.1.conns 1).active = false := by
  decide +kernel

end Nyx.Net
