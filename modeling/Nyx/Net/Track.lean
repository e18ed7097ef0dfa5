import Nyx.Net.Effects

/-! One connection, operation by operation.

An operation that is about other connections leaves this one as it is; the others are its own
calls, the segments that are matched with it, and the timer (`Sees`). -/
namespace Nyx.Net
open Function Stack

def Op.datagram (s : Stack) : Op → Option Datagram
  | .packet d => some d
  | .deliver => s.ring.head?
  | _ => none

namespace Stack

/-- The segment that an operation brings for connection `i`. -/
def segmentFor (s : Stack) (i : ConnId) (op : Op) : Option Segment :=
  match op.datagram s with
  | none => none
  | some d =>
    if s.forUs d then
      (parse d.packet).filter fun seg =>
        s.findConnByTuple d.srcIp seg.dstPort seg.srcPort == some i
    else none

end Stack

/-- A connection after its turn in `tcp_tick`. -/
def Conn.ticked (c : Conn) (now : BitVec 32) : Conn :=
  match c.rt with
  | none => c
  | some r =>
    if !c.active || (now - (r.sentTick + r.rto)).slt 0#32 then c
    else if tcpMaxRetries ≤ r.retries then
      {c with rt := none, recvBuf := [], active := false, state := .closed}
    else {c with rt := some (r.again now)}

/-- What an operation makes of the active connection `i`. -/
inductive Sees (s : Stack) (i : ConnId) : Op → Conn → Prop
  | same (op : Op) (hquiet : s.segmentFor i op = none) : Sees s i op (s.conns i)
  | accepted (l : ConnId) : Sees s i (.accept l) {s.conns i with accepted := true}
  | sent (data : List Byte) (copied : Bool) (hcopied : (∀ n, s.memory n = true) → copied = true) :
      Sees s i (.send i data) ((s.conns i).sent (flagAck ||| flagPsh) data s.now copied)
  | read (maxLen : Nat) :
      Sees s i (.recv i maxLen) {s.conns i with recvBuf := (s.conns i).recvBuf.drop maxLen}
  | closed (c : Conn) (hgone : c.active = false) : Sees s i (.close i) c
  | received (op : Op) (seg : Segment) (hseg : s.segmentFor i op = some seg) :
      Sees s i op ((s.conns i).receive seg).1
  | ticked : Sees s i .tick ((s.conns i).ticked s.now)

/-- What an operation makes of the unused entry `i`, where there is always memory. -/
inductive Opened (s : Stack) (i : ConnId) : Op → Conn → Prop
  | unused (op : Op) : Opened s i op (s.conns i)
  | dialled (dstIp : BitVec 32) (dstPort srcPort : BitVec 16) (srcIp : BitVec 32) :
      Opened s i (.connect dstIp dstPort srcPort) (Conn.sent
        ⟨true, .synSent, false, srcIp, dstIp, srcPort, dstPort, s.nextIsn, 0#32, [], none⟩
        flagSyn [] s.now true)
  | listening (port : BitVec 16) : Opened s i (.listen port)
      ⟨true, .listen, false, 0#32, 0#32, port, 0#16, 0#32, 0#32, [], none⟩
  | spawned (op : Op) (d : Datagram) (seg : Segment) (hd : op.datagram s = some d)
      (hseg : parse d.packet = some seg) (hsyn : seg.has flagSyn = true ∧ seg.has flagAck = false) :
      Opened s i op (Conn.sent ⟨true, .synRcvd, false, d.dstIp, d.srcIp, seg.dstPort, seg.srcPort,
        s.nextIsn, seg.seq + 1#32, [], none⟩ (flagSyn ||| flagAck) [] s.now true)

/-- The same machine at the same time: no operation of the stack changes these. -/
structure SameMachine (s s' : Stack) : Prop where
  nics : s'.nics = s.nics
  resolves : s'.resolves = s.resolves
  memory : s'.memory = s.memory
  now : s'.now = s.now

section
variable {s s' : Stack} {i j : ConnId}

/-! ### Sending -/

/-- An ACK without data changes nothing at the connection that sends it. -/
theorem sent_ack (c : Conn) (now : BitVec 32) (copied : Bool) : c.sent flagAck [] now copied = c := by
  have hcons : consumes flagAck [] = false := by decide
  have hlen : seqLen flagAck [] = 0#32 := by decide
  simp only [Conn.sent, hcons, hlen, BitVec.add_zero, ite_self, Bool.false_eq_true, if_false]

theorem sendSegment_ack (s : Stack) (i : ConnId) : (s.sendSegment i flagAck []).1.conns = s.conns := by
  rcases sendSegment_cases s i flagAck [] with ⟨hquiet, -⟩ | ⟨s₁, copied, hquiet, hsent, -⟩
  · exact hquiet.conns
  rw [hsent, sent_ack, setConn, hquiet.conns]
  exact update_eq_self i s.conns

theorem sendSegment_ne (hj : i ≠ j) (flags : BitVec 6) (data : List Byte) :
    (s.sendSegment j flags data).1.conns i = s.conns i := by
  obtain ⟨c, -, hconns, -⟩ := sendSegment_conns s j flags data
  rw [hconns, update_of_ne hj]

variable {c : Conn}

theorem setConn_ne (hj : i ≠ j) : (s.setConn j c).conns i = s.conns i := by
  rw [setConn]
  exact update_of_ne hj c s.conns

/-! ### Other connections' operations -/

theorem tcpConnect_other (ha : (s.conns i).active = true) (dstIp : BitVec 32)
    (dstPort srcPort : BitVec 16) : (s.tcpConnect dstIp dstPort srcPort).1.conns i = s.conns i := by
  unfold tcpConnect
  split
  case h_2 => rfl
  case h_1 slot srcIp hslot _ =>
    have hne : i ≠ slot := by
      rintro rfl
      exact nomatch (findSlot_inactive hslot).symm.trans ha
    rw [sendSegment_ne hne]
    exact update_of_ne hne _ s.conns

theorem tcpListen_other (ha : (s.conns i).active = true) (port : BitVec 16) :
    (s.tcpListen port).1.conns i = s.conns i := by
  unfold tcpListen
  split
  case h_1 => rfl
  case h_2 slot hslot =>
    refine setConn_ne ?_
    rintro rfl
    exact nomatch (findSlot_inactive hslot).symm.trans ha

theorem unmatched_other (ha : (s.conns i).active = true) (seg : Segment) (srcIp dstIp : BitVec 32) :
    (s.unmatched seg srcIp dstIp).conns i = s.conns i := by
  unfold unmatched
  split
  · rfl
  split
  case h_1 _ slot _ hslot =>
    have hne : i ≠ slot := by
      rintro rfl
      exact nomatch (findSlot_inactive hslot).symm.trans ha
    rw [sendSegment_ne hne]
    exact update_of_ne hne _ s.conns
  case h_2 => exact congrFun (quiet_ipSend _ _ _).conns i

/-! ### Packets -/

theorem handleSegment_found {seg : Segment} {srcIp : BitVec 32} (dstIp : BitVec 32)
    (hf : s.findConnByTuple srcIp seg.dstPort seg.srcPort = some j) :
    (s.handleSegment seg srcIp dstIp).conns = update s.conns j ((s.conns j).receive seg).1 := by
  rw [handleSegment, hf]
  dsimp only
  split
  · exact sendSegment_ack _ j
  · rfl

theorem handleSegment_conns (ha : (s.conns i).active = true) (seg : Segment)
    (srcIp dstIp : BitVec 32) : (s.handleSegment seg srcIp dstIp).conns i =
      if s.findConnByTuple srcIp seg.dstPort seg.srcPort = some i then ((s.conns i).receive seg).1
      else s.conns i := by
  cases hf : s.findConnByTuple srcIp seg.dstPort seg.srcPort with
  | none =>
    rw [if_neg (fun hx => nomatch hx), handleSegment, hf]
    exact unmatched_other ha seg srcIp dstIp
  | some j =>
    rw [handleSegment_found dstIp hf]
    by_cases hij : i = j
    · subst hij
      rw [update_self, if_pos rfl]
    · rw [update_of_ne hij, if_neg fun hx => hij (Option.some.inj hx).symm]

theorem ipHandlePacket_conns (ha : (s.conns i).active = true) (d : Datagram) :
    (s.ipHandlePacket d).conns i =
      match s.segmentFor i (.packet d) with
      | some seg => ((s.conns i).receive seg).1
      | none => s.conns i := by
  have hseg : s.segmentFor i (.packet d) = if s.forUs d then
      (parse d.packet).filter fun seg =>
        s.findConnByTuple d.srcIp seg.dstPort seg.srcPort == some i
    else none := rfl
  rw [ipHandlePacket, hseg]
  cases s.forUs d with
  | false => rfl
  | true =>
    rw [if_pos rfl, if_pos rfl, tcpHandlePacket]
    cases parse d.packet with
    | none => rfl
    | some seg =>
      rw [handleSegment_conns ha, Option.filter_some]
      by_cases hf : s.findConnByTuple d.srcIp seg.dstPort seg.srcPort = some i
      · rw [if_pos hf, if_pos (by simp [hf])]
      · rw [if_neg hf, if_neg (by simpa using hf)]

theorem segmentFor_deliver {d : Datagram} {rest : List Datagram} (hring : s.ring = d :: rest) :
    s.segmentFor i .deliver = {s with ring := rest}.segmentFor i (.packet d) := by
  rw [segmentFor, show Op.datagram s .deliver = some d by rw [Op.datagram, hring]; rfl]
  rfl

theorem sees_packet (ha : (s.conns i).active = true) (d : Datagram) :
    Sees s i (.packet d) ((s.ipHandlePacket d).conns i) := by
  rw [ipHandlePacket_conns ha]
  cases hseg : s.segmentFor i (.packet d) with
  | none => exact .same _ hseg
  | some seg => exact .received _ seg hseg

theorem sees_deliver (ha : (s.conns i).active = true) : Sees s i .deliver (s.deliver.conns i) := by
  unfold deliver
  cases hring : s.ring with
  | nil =>
    refine .same _ ?_
    rw [segmentFor, Op.datagram, hring]
    rfl
  | cons d rest =>
    have hseg := segmentFor_deliver (i := i) hring
    rw [ipHandlePacket_conns (s := {s with ring := rest}) ha, ← hseg]
    cases hfor : s.segmentFor i .deliver with
    | none => exact .same _ hfor
    | some seg => exact .received _ seg hfor

/-! ### The timer -/

/-- A connection that the timer does not give up keeps all but its retransmission buffer. -/
theorem ticked_active {now : BitVec 32} (h : (c.ticked now).active = true) :
    ∃ rt, c.ticked now = {c with rt} := by
  unfold Conn.ticked at h ⊢
  split
  · exact ⟨c.rt, rfl⟩
  case h_2 r hr =>
    rw [hr] at h
    dsimp only at h
    split_ifs at h ⊢
    · exact ⟨c.rt, rfl⟩
    · exact ⟨some (r.again now), rfl⟩

theorem tickConn_conns (s : Stack) (j : ConnId) :
    (s.tickConn j).conns = update s.conns j ((s.conns j).ticked s.now) ∧
      (s.tickConn j).now = s.now := by
  rw [tickConn, Conn.ticked]
  cases (s.conns j).rt with
  | none => exact ⟨(update_eq_self j s.conns).symm, rfl⟩
  | some r =>
    dsimp only
    split_ifs
    · exact ⟨(update_eq_self j s.conns).symm, rfl⟩
    · exact ⟨rfl, rfl⟩
    · exact ⟨(quiet_ipSend _ _ _).conns, (quiet_ipSend _ _ _).now⟩

/-- Connections have their turns independently of each other. -/
theorem foldl_tickConn (i : ConnId) (is : List ConnId) (hnodup : is.Nodup) (s : Stack) :
    (is.foldl tickConn s).conns i = (if i ∈ is then (s.conns i).ticked s.now else s.conns i) ∧
      (is.foldl tickConn s).now = s.now := by
  induction is generalizing s with
  | nil => exact ⟨rfl, rfl⟩
  | cons j rest ih =>
    obtain ⟨hj, hrest⟩ := List.nodup_cons.mp hnodup
    obtain ⟨hconns, hnow⟩ := tickConn_conns s j
    obtain ⟨hi, hn⟩ := ih hrest (s.tickConn j)
    rw [hconns, hnow] at hi
    refine ⟨hi.trans ?_, hn.trans hnow⟩
    by_cases hij : i = j
    · subst hij
      rw [if_neg hj, if_pos List.mem_cons_self, update_self]
    rw [update_of_ne hij]
    simp only [List.mem_cons, hij, false_or]

theorem tcpTick_conns (s : Stack) (i : ConnId) : s.tcpTick.conns i = (s.conns i).ticked s.now :=
  (foldl_tickConn i _ (List.nodup_finRange _) s).1.trans (if_pos (List.mem_finRange i))

/-! ### Every operation -/

theorem tcpClose_self (ha : (s.conns i).active = true) :
    ((s.tcpClose i).conns i).active = false := by
  unfold tcpClose
  rw [if_neg (by simp [ha])]
  exact congrArg Conn.active setConn_self

theorem tcpClose_ne (hj : i ≠ j) : (s.tcpClose j).conns i = s.conns i := by
  unfold tcpClose
  dsimp only
  split
  · rfl
  refine (setConn_ne hj).trans ?_
  split
  · exact (sendSegment_ne hj _ _).trans (setConn_ne hj)
  · exact (sendSegment_ne hj _ _).trans (setConn_ne hj)
  · rfl

theorem sees_step (ha : (s.conns i).active = true) (op : Op) :
    Sees s i op ((s.step op).conns i) := by
  cases op with
  | connect dstIp dstPort srcPort =>
    rw [step, tcpConnect_other ha]
    exact .same _ rfl
  | listen port =>
    rw [step, tcpListen_other ha]
    exact .same _ rfl
  | accept l =>
    rw [step, tcpAccept]
    split
    · exact .same _ rfl
    split
    · exact .same _ rfl
    case h_2 j _ =>
      by_cases hij : i = j
      · subst hij
        rw [show (((s.setConn i _).record (.accept i), some i).1 : Stack).conns i = _ from
          setConn_self]
        exact .accepted l
      · rw [show (((s.setConn j _).record (.accept j), some j).1 : Stack).conns i = _ from
          setConn_ne hij]
        exact .same _ rfl
  | send j data =>
    rw [step, tcpSend]
    split
    · exact .same _ rfl
    by_cases hij : i = j
    · subst hij
      rcases sendSegment_cases s i (flagAck ||| flagPsh) data with
        ⟨hquiet, -⟩ | ⟨s₁, copied, hquiet, hsent, hcopied⟩
      · rw [hquiet.conns]
        exact .same _ rfl
      rw [hsent, setConn_self]
      exact .sent data copied hcopied
    · rw [sendSegment_ne hij]
      exact .same _ rfl
  | recv j maxLen =>
    rw [step, tcpRecv]
    split
    · exact .same _ rfl
    by_cases hij : i = j
    · subst hij
      rw [setConn_self]
      exact .read maxLen
    · rw [setConn_ne hij]
      exact .same _ rfl
  | close j =>
    by_cases hij : i = j
    · subst hij
      exact .closed _ (tcpClose_self ha)
    rw [step, tcpClose_ne hij]
    exact .same _ rfl
  | tick =>
    rw [step, tcpTick_conns]
    exact .ticked
  | clock now => exact .same _ rfl
  | packet d => exact sees_packet ha d
  | deliver => exact sees_deliver ha
  | debugDrop n => exact .same _ rfl

/-! ### Unused entries -/

theorem sendSegment_self (hmem : ∀ n, s.memory n = true) (flags : BitVec 6) (data : List Byte) :
    (s.sendSegment i flags data).1.conns i = (s.conns i).sent flags data s.now true := by
  rcases sendSegment_cases s i flags data with ⟨-, hfull⟩ | ⟨s₁, copied, -, hsent, hcopied⟩
  · exact nomatch (hmem _).symm.trans hfull
  · rw [hsent, hcopied hmem, setConn_self]

/-- The first segment of a connection `c` in the entry `slot`. -/
theorem sendSegment_first {P : Conn → Prop} {slot : ConnId} (hc : s'.conns = update s.conns slot c)
    (hmemory : s'.memory = s.memory) (hnow : s'.now = s.now) (hmem : ∀ n, s.memory n = true)
    (flags : BitVec 6) (hold : P (s.conns i)) (hnew : P (c.sent flags [] s.now true)) :
    P ((s'.sendSegment slot flags []).1.conns i) := by
  by_cases hi : i = slot
  · subst hi
    rw [sendSegment_self (fun n => hmemory ▸ hmem n), hc, update_self, hnow]
    exact hnew
  · rw [sendSegment_ne hi, hc, update_of_ne hi]
    exact hold

theorem opened_connect (hmem : ∀ n, s.memory n = true) (dstIp : BitVec 32)
    (dstPort srcPort : BitVec 16) : Opened s i (.connect dstIp dstPort srcPort)
      ((s.tcpConnect dstIp dstPort srcPort).1.conns i) := by
  unfold tcpConnect
  split
  case h_2 => exact .unused _
  case h_1 slot srcIp _ _ =>
    refine sendSegment_first (P := Opened s i (.connect dstIp dstPort srcPort)) (s := s)
      (c := ⟨true, .synSent, false, srcIp, dstIp, srcPort, dstPort, s.nextIsn, 0#32, [], none⟩)
      ?_ ?_ ?_ hmem flagSyn (.unused _) (.dialled dstIp dstPort srcPort srcIp)
    · rfl
    · rfl
    · rfl

theorem opened_listen (port : BitVec 16) :
    Opened s i (.listen port) ((s.tcpListen port).1.conns i) := by
  unfold tcpListen
  split
  case h_1 => exact .unused _
  case h_2 slot _ =>
    by_cases hi : i = slot
    · subst hi
      exact (setConn_self (s := s) (i := i)) ▸ .listening port
    rw [show (((s.setConn slot _).record (.listen slot), some slot).1 : Stack).conns i = _ from
      setConn_ne hi]
    exact .unused _

section
variable (hmem : ∀ n, s.memory n = true)
include hmem

theorem opened_unmatched {op : Op} {d : Datagram} {seg : Segment} (hd : op.datagram s = some d)
    (hseg : parse d.packet = some seg) :
    Opened s i op ((s.unmatched seg d.srcIp d.dstIp).conns i) := by
  unfold unmatched
  split
  · exact .unused op
  split
  case h_1 slot hl _ =>
    have hsyn : seg.has flagSyn = true ∧ seg.has flagAck = false := by
      by_contra hx
      rw [if_neg (by simpa using hx)] at hl
      exact nomatch hl
    refine sendSegment_first (P := Opened s i op) (s := s)
      (c := ⟨true, .synRcvd, false, d.dstIp, d.srcIp, seg.dstPort, seg.srcPort, s.nextIsn,
        seg.seq + 1#32, [], none⟩)
      ?_ ?_ ?_ hmem (flagSyn ||| flagAck) (.unused op) (.spawned op d seg hd hseg hsyn)
    · rfl
    · rfl
    · rfl
  case h_2 =>
    rw [(quiet_ipSend _ _ _).conns]
    exact .unused op

theorem opened_segment {op : Op} {d : Datagram} {seg : Segment} (hd : op.datagram s = some d)
    (hseg : parse d.packet = some seg) (ha : (s.conns i).active = false) :
    Opened s i op ((s.handleSegment seg d.srcIp d.dstIp).conns i) := by
  cases hf : s.findConnByTuple d.srcIp seg.dstPort seg.srcPort with
  | some j =>
    have hij : i ≠ j := by
      rintro rfl
      exact nomatch ha.symm.trans (findConnByTuple_matched hf).1
    rw [handleSegment_found d.dstIp hf, update_of_ne hij]
    exact .unused op
  | none =>
    rw [handleSegment, hf]
    exact opened_unmatched hmem hd hseg

theorem opened_packet (ha : (s.conns i).active = false) (d : Datagram) :
    Opened s i (.packet d) ((s.ipHandlePacket d).conns i) := by
  unfold ipHandlePacket
  split
  · unfold tcpHandlePacket
    split
    · exact .unused _
    case h_2 seg hseg => exact opened_segment hmem rfl hseg ha
  · exact .unused _

theorem opened_deliver (ha : (s.conns i).active = false) :
    Opened s i .deliver (s.deliver.conns i) := by
  unfold deliver
  split
  · exact .unused _
  case h_2 d rest hring =>
    have hopened := opened_packet (s := {s with ring := rest}) hmem ha d
    generalize ({s with ring := rest}.ipHandlePacket d).conns i = c at hopened
    have hd : Op.datagram s .deliver = some d := by rw [Op.datagram, hring]; rfl
    cases hopened with
    | unused => exact .unused .deliver
    | spawned _ d' seg hd' hseg hsyn =>
      cases hd'
      exact .spawned .deliver d seg hd hseg hsyn

/-- Nothing but opening a connection changes an unused entry. -/
theorem opened_step (ha : (s.conns i).active = false) (op : Op) :
    Opened s i op ((s.step op).conns i) := by
  have hkept {op : Op} (h : (s.step op).conns i = s.conns i) :
      Opened s i op ((s.step op).conns i) := h ▸ .unused op
  cases op with
  | connect dstIp dstPort srcPort => exact opened_connect hmem dstIp dstPort srcPort
  | listen port => exact opened_listen port
  | accept l =>
    refine hkept ?_
    rw [step, tcpAccept]
    split
    · rfl
    split
    · rfl
    case h_2 j hj =>
      have hacc := List.find?_some hj
      refine setConn_ne ?_
      rintro rfl
      simp [acceptable, ha] at hacc
  | send j data =>
    refine hkept ?_
    rw [step, tcpSend]
    split
    · rfl
    case isFalse hact =>
      refine sendSegment_ne ?_ _ _
      rintro rfl
      exact hact (by rw [ha]; rfl)
  | recv j maxLen =>
    refine hkept ?_
    rw [step, tcpRecv]
    split
    · rfl
    case isFalse hact =>
      refine setConn_ne ?_
      rintro rfl
      exact hact (by rw [ha]; rfl)
  | close j =>
    refine hkept ?_
    by_cases hij : i = j
    · subst hij
      rw [step, tcpClose]
      rw [if_pos (by rw [ha]; rfl)]
    · exact tcpClose_ne hij
  | tick =>
    refine hkept ?_
    rw [step, tcpTick_conns, Conn.ticked]
    split
    · rfl
    · exact if_pos (by rw [ha]; rfl)
  | clock now => exact .unused _
  | packet d => exact opened_packet hmem ha d
  | deliver => exact opened_deliver hmem ha
  | debugDrop n => exact .unused _

end

/-! ### The machine -/

theorem SameMachine.of_quiet (h : Quiet s s') : SameMachine s s' := ⟨h.nics, h.resolves, h.memory, h.now⟩

theorem same_sendSegment (s : Stack) (j : ConnId) (flags : BitVec 6) (data : List Byte) :
    SameMachine s (s.sendSegment j flags data).1 := by
  rcases sendSegment_cases s j flags data with ⟨hquiet, -⟩ | ⟨s₁, copied, hquiet, hsent, -⟩
  · exact .of_quiet hquiet
  rw [hsent]
  exact ⟨hquiet.nics, hquiet.resolves, hquiet.memory, hquiet.now⟩

theorem same_handleSegment (s : Stack) (seg : Segment) (srcIp dstIp : BitVec 32) :
    SameMachine s (s.handleSegment seg srcIp dstIp) := by
  unfold handleSegment unmatched
  split
  · split
    · exact ⟨rfl, rfl, rfl, rfl⟩
    split
    · obtain ⟨hn, hr, hm, ht⟩ := same_sendSegment _ _ (flagSyn ||| flagAck) []
      exact ⟨hn, hr, hm, ht⟩
    · exact .of_quiet (quiet_ipSend _ _ _)
  · dsimp only
    split
    · obtain ⟨hn, hr, hm, ht⟩ := same_sendSegment _ _ flagAck []
      exact ⟨hn, hr, hm, ht⟩
    · exact ⟨rfl, rfl, rfl, rfl⟩

theorem same_ipHandlePacket (s : Stack) (d : Datagram) : SameMachine s (s.ipHandlePacket d) := by
  unfold ipHandlePacket tcpHandlePacket
  split
  · split
    · exact ⟨rfl, rfl, rfl, rfl⟩
    · exact same_handleSegment s _ d.srcIp d.dstIp
  · exact ⟨rfl, rfl, rfl, rfl⟩

theorem same_tcpTick (s : Stack) : SameMachine s s.tcpTick := by
  have hone (s : Stack) (j : ConnId) : SameMachine s (s.tickConn j) := by
    unfold tickConn
    dsimp only
    split
    · exact ⟨rfl, rfl, rfl, rfl⟩
    split_ifs
    · exact ⟨rfl, rfl, rfl, rfl⟩
    · exact ⟨rfl, rfl, rfl, rfl⟩
    · obtain ⟨-, -, ht, hn, hr, hm, -⟩ := quiet_ipSend (s.setConn j _) (s.conns j).dstIp _
      exact ⟨hn, hr, hm, ht⟩
  unfold tcpTick
  generalize List.finRange tcpMaxConns = is
  induction is generalizing s with
  | nil => exact ⟨rfl, rfl, rfl, rfl⟩
  | cons j rest ih =>
    obtain ⟨hn, hr, hm, ht⟩ := ih (s.tickConn j)
    exact ⟨hn.trans (hone s j).nics, hr.trans (hone s j).resolves, hm.trans (hone s j).memory,
      ht.trans (hone s j).now⟩

theorem same_step (s : Stack) (op : Op) (hclock : ∀ now, op ≠ .clock now) :
    SameMachine s (s.step op) := by
  cases op with
  | connect dstIp dstPort srcPort =>
    rw [step, tcpConnect]
    split
    · obtain ⟨hn, hr, hm, ht⟩ := same_sendSegment _ _ flagSyn []
      exact ⟨hn, hr, hm, ht⟩
    · exact ⟨rfl, rfl, rfl, rfl⟩
  | listen port =>
    rw [step, tcpListen]
    split <;> exact ⟨rfl, rfl, rfl, rfl⟩
  | accept l =>
    rw [step, tcpAccept]
    split
    · exact ⟨rfl, rfl, rfl, rfl⟩
    split <;> exact ⟨rfl, rfl, rfl, rfl⟩
  | send j data =>
    rw [step, tcpSend]
    split
    · exact ⟨rfl, rfl, rfl, rfl⟩
    · exact same_sendSegment s j _ data
  | recv j maxLen =>
    rw [step, tcpRecv]
    split <;> exact ⟨rfl, rfl, rfl, rfl⟩
  | close j =>
    rw [step, tcpClose]
    split
    · exact ⟨rfl, rfl, rfl, rfl⟩
    split
    · obtain ⟨hn, hr, hm, ht⟩ := same_sendSegment (s.setConn j _) j (flagFin ||| flagAck) []
      exact ⟨hn, hr, hm, ht⟩
    · obtain ⟨hn, hr, hm, ht⟩ := same_sendSegment (s.setConn j _) j (flagFin ||| flagAck) []
      exact ⟨hn, hr, hm, ht⟩
    · exact ⟨rfl, rfl, rfl, rfl⟩
  | tick => exact same_tcpTick s
  | clock now => exact absurd rfl (hclock now)
  | packet d => exact same_ipHandlePacket s d
  | deliver =>
    rw [step, deliver]
    split
    · exact ⟨rfl, rfl, rfl, rfl⟩
    case h_2 d rest _ =>
      obtain ⟨hn, hr, hm, ht⟩ := same_ipHandlePacket {s with ring := rest} d
      exact ⟨hn, hr, hm, ht⟩
  | debugDrop n => exact ⟨rfl, rfl, rfl, rfl⟩

end

end Nyx.Net
