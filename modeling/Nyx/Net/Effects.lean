import Nyx.Net.Tcp

/-! What an operation of the stack does to the connection table.

Every operation but the timer changes at most one connection, in one of five ways (`Effect`), and
the timer does so connection by connection. Sending changes only the connection that sends
(`sendSegment_cases`). -/
namespace Nyx.Net
open Function Stack

/-- Only the ring, the wire and the counters differ. -/
structure Quiet (s s' : Stack) : Prop where
  conns : s'.conns = s.conns
  nextIsn : s'.nextIsn = s.nextIsn
  now : s'.now = s.now
  nics : s'.nics = s.nics
  resolves : s'.resolves = s.resolves
  memory : s'.memory = s.memory
  log : s'.log = s.log

structure Kin (c c' : Conn) : Prop where
  active : c'.active = c.active
  accepted : c'.accepted = c.accepted
  srcIp : c'.srcIp = c.srcIp
  dstIp : c'.dstIp = c.dstIp
  srcPort : c'.srcPort = c.srcPort
  dstPort : c'.dstPort = c.dstPort
  listen : c'.state = .listen ↔ c.state = .listen
  live : c.state ≠ .closed → c'.state ≠ .closed

def Conn.key (c : Conn) : BitVec 32 × BitVec 16 × BitVec 16 := (c.dstIp, c.srcPort, c.dstPort)

def Conn.matched (c : Conn) : Bool := c.active && c.state != .listen

/-- The events, other than the end of a connection, that an operation may lead to, and for which
connections. -/
def Op.asks : Op → Event → Conn → Prop
  | .connect dstIp dstPort srcPort, .connect _, c => c.key = (dstIp, srcPort, dstPort)
  | .listen _, .listen _, _ => True
  | .accept _, .accept _, _ => True
  | .packet _, .spawn _ _, _ => True
  | .deliver, .spawn _ _, _ => True
  | _, _, _ => False

/-- A new connection, and the event it is logged with. A listener's child has a key that no other
connection has. -/
inductive Opening (asks : Event → Conn → Prop) (s : Stack) (i : ConnId) (c : Conn) : Event → Prop
  | connect (hstate : c.state ≠ .listen) (hask : asks (.connect i) c) :
      Opening asks s i c (.connect i)
  | listen (hstate : c.state = .listen) (hask : asks (.listen i) c) : Opening asks s i c (.listen i)
  | spawn (hstate : c.state ≠ .listen)
      (hkey : ∀ j, (s.conns j).matched = true → (s.conns j).key ≠ c.key)
      (hask : asks (.spawn i c.srcPort) c) : Opening asks s i c (.spawn i c.srcPort)

inductive Effect (asks : Event → Conn → Prop) (s s' : Stack) : Prop
  | keep (hc : s'.conns = s.conns) (hl : s'.log = s.log)
  | touch (i : ConnId) (c : Conn) (ha : (s.conns i).active = true) (hk : Kin (s.conns i) c)
      (hc : s'.conns = Function.update s.conns i c) (hl : s'.log = s.log)
  | opens (i : ConnId) (c : Conn) (e : Event) (ha : (s.conns i).active = false)
      (hnew : c.active = true ∧ c.accepted = false ∧ c.state ≠ .closed) (he : Opening asks s i c e)
      (hc : s'.conns = Function.update s.conns i c) (hl : s'.log = e :: s.log)
  | closes (i : ConnId) (c : Conn) (ha : (s.conns i).active = true) (hgone : c.active = false)
      (hc : s'.conns = Function.update s.conns i c) (hl : s'.log = .close i :: s.log)
  | accepts (i : ConnId) (ha : (s.conns i).active = true) (hfirst : (s.conns i).accepted = false)
      (hask : asks (.accept i) (s.conns i))
      (hc : s'.conns = Function.update s.conns i {s.conns i with accepted := true})
      (hl : s'.log = .accept i :: s.log)

section
variable {asks : Event → Conn → Prop} {s s' s'' : Stack} {c c' c'' : Conn} {i : ConnId}

@[simp] theorem Stack.setConn_self : (s.setConn i c).conns i = c := by
  simp [setConn]

theorem Quiet.refl (s : Stack) : Quiet s s := ⟨rfl, rfl, rfl, rfl, rfl, rfl, rfl⟩

theorem Quiet.trans (h : Quiet s s') (h' : Quiet s' s'') : Quiet s s'' where
  conns := h'.conns.trans h.conns
  nextIsn := h'.nextIsn.trans h.nextIsn
  now := h'.now.trans h.now
  nics := h'.nics.trans h.nics
  resolves := h'.resolves.trans h.resolves
  memory := h'.memory.trans h.memory
  log := h'.log.trans h.log

theorem Kin.refl (c : Conn) : Kin c c := ⟨rfl, rfl, rfl, rfl, rfl, rfl, Iff.rfl, id⟩

theorem Kin.trans (h : Kin c c') (h' : Kin c' c'') : Kin c c'' where
  active := h'.active.trans h.active
  accepted := h'.accepted.trans h.accepted
  srcIp := h'.srcIp.trans h.srcIp
  dstIp := h'.dstIp.trans h.dstIp
  srcPort := h'.srcPort.trans h.srcPort
  dstPort := h'.dstPort.trans h.dstPort
  listen := h'.listen.trans h.listen
  live := h'.live ∘ h.live

theorem Kin.key (h : Kin c c') : c'.key = c.key := by
  rw [Conn.key, Conn.key, h.dstIp, h.srcPort, h.dstPort]

theorem Kin.matched (h : Kin c c') : c'.matched = c.matched := by
  rw [Conn.matched, Conn.matched, h.active, Bool.eq_iff_iff]
  simp only [Bool.and_eq_true, bne_iff_ne, ne_eq, h.listen]

/-! ### Sending -/

theorem quiet_ipSend (s : Stack) (dstIp : BitVec 32) (packet : List Byte) :
    Quiet s (s.ipSend dstIp packet).1 := by
  have henqueue (s : Stack) (d : Datagram) : Quiet s (s.loopbackEnqueue d) := by
    unfold loopbackEnqueue
    split
    · exact .refl s
    · exact ⟨rfl, rfl, rfl, rfl, rfl, rfl, rfl⟩
  have hmalloc (s : Stack) : Quiet s s.kmalloc.1 := ⟨rfl, rfl, rfl, rfl, rfl, rfl, rfl⟩
  unfold ipSend
  dsimp only
  split
  · split
    · exact (hmalloc s).trans (henqueue _ _)
    · exact hmalloc s
  split
  · exact .refl s
  split
  · split
    · exact ⟨rfl, rfl, rfl, rfl, rfl, rfl, rfl⟩
    · exact hmalloc s
  · exact .refl s

/-- `send_segment` does nothing for want of memory, or moves its connection on and hands the
packet down. -/
theorem sendSegment_cases (s : Stack) (i : ConnId) (flags : BitVec 6) (data : List Byte) :
    Quiet s (s.sendSegment i flags data).1 ∧ s.memory s.mallocs = false ∨
      ∃ s₁ copied, Quiet s s₁ ∧ (s.sendSegment i flags data).1 =
          s₁.setConn i ((s.conns i).sent flags data s.now copied) ∧
        ((∀ n, s.memory n = true) → copied = true) := by
  unfold sendSegment
  dsimp only [kmalloc]
  split
  case isTrue hfull =>
    exact .inl ⟨⟨rfl, rfl, rfl, rfl, rfl, rfl, rfl⟩, by simpa using hfull⟩
  case isFalse =>
    refine .inr ?_
    -- the copy for retransmission
    obtain ⟨s₁, copied, hcopy, hquiet, hmem⟩ : ∃ s₁ copied,
        (if consumes flags data = true then ({s with mallocs := s.mallocs + 1}.kmalloc)
          else ({s with mallocs := s.mallocs + 1}, true)) = (s₁, copied) ∧ Quiet s s₁ ∧
        ((∀ n, s.memory n = true) → copied = true) := by
      split
      · exact ⟨_, _, rfl, ⟨rfl, rfl, rfl, rfl, rfl, rfl, rfl⟩, fun h => h _⟩
      · exact ⟨_, _, rfl, ⟨rfl, rfl, rfl, rfl, rfl, rfl, rfl⟩, fun _ => rfl⟩
    rw [kmalloc] at hcopy
    rw [hcopy]
    split
    · refine ⟨{s₁ with dropTx := s₁.dropTx - 1}, copied,
        hquiet.trans ⟨rfl, rfl, rfl, rfl, rfl, rfl, rfl⟩, ?_, hmem⟩
      rw [← hquiet.now]
    · have hsend := quiet_ipSend s₁ (s.conns i).dstIp ((s.conns i).packet flags data)
      refine ⟨_, copied, hquiet.trans hsend, ?_, hmem⟩
      rw [← hquiet.now, ← hsend.now]

theorem sendSegment_conns (s : Stack) (i : ConnId) (flags : BitVec 6) (data : List Byte) :
    ∃ c, Kin (s.conns i) c ∧ (s.sendSegment i flags data).1.conns = update s.conns i c ∧
      (s.sendSegment i flags data).1.log = s.log := by
  rcases sendSegment_cases s i flags data with ⟨hquiet, -⟩ | ⟨s₁, copied, hquiet, hsent, -⟩
  · exact ⟨s.conns i, .refl _, by rw [hquiet.conns, update_eq_self], hquiet.log⟩
  rw [hsent]
  refine ⟨(s.conns i).sent flags data s.now copied,
    ⟨rfl, rfl, rfl, rfl, rfl, rfl, Iff.rfl, id⟩, ?_, hquiet.log⟩
  rw [setConn, hquiet.conns]

theorem sendSegment_setConn (s : Stack) (i : ConnId) (c : Conn) (flags : BitVec 6)
    (data : List Byte) : ∃ c', Kin c c' ∧
      ((s.setConn i c).sendSegment i flags data).1.conns = update s.conns i c' ∧
      ((s.setConn i c).sendSegment i flags data).1.log = s.log := by
  obtain ⟨c', hkin, hconns, hlog⟩ := sendSegment_conns (s.setConn i c) i flags data
  rw [setConn_self] at hkin
  exact ⟨c', hkin, hconns.trans (update_idem _ _ _), hlog⟩

/-! ### The operations -/

theorem kin_acked (c : Conn) (seg : Segment) : Kin c (c.acked seg) := by
  unfold Conn.acked
  split
  · refine ⟨rfl, rfl, rfl, rfl, rfl, rfl, ?_, fun hlive => ?_⟩ <;> dsimp only <;> split
    case isTrue hrcvd => simp [hrcvd]
    case isFalse => rfl
    case isTrue => exact nofun
    case isFalse => exact hlive
  · exact .refl c

theorem kin_receive (c : Conn) (seg : Segment) : Kin c (c.receive seg).1 := by
  refine (kin_acked c seg).trans ?_
  unfold Conn.receive
  generalize c.acked seg = c
  dsimp only
  split
  · exact ⟨rfl, rfl, rfl, rfl, rfl, rfl, Iff.rfl, id⟩
  split
  · split
    case isTrue hsent => exact ⟨rfl, rfl, rfl, rfl, rfl, rfl, by simp [hsent], fun _ => nofun⟩
    case isFalse => exact .refl c
  split
  · split
    case isTrue hest => exact ⟨rfl, rfl, rfl, rfl, rfl, rfl, by simp [hest], fun _ => nofun⟩
    case isFalse =>
      split
      case isTrue hfin => exact ⟨rfl, rfl, rfl, rfl, rfl, rfl, by simp [hfin], fun _ => nofun⟩
      case isFalse => exact .refl c
  · exact .refl c

theorem findSlot_inactive (h : s.findSlot = some i) : (s.conns i).active = false := by
  simpa using List.find?_some h

variable {srcPort dstPort : BitVec 16} {dstIp : BitVec 32}

theorem findConnByTuple_matched (h : s.findConnByTuple dstIp srcPort dstPort = some i) :
    (s.conns i).active = true ∧ (s.conns i).state ≠ .listen ∧
      (s.conns i).key = (dstIp, srcPort, dstPort) := by
  have hfound := List.find?_some h
  simp only [Bool.and_eq_true, bne_iff_ne, beq_iff_eq] at hfound
  obtain ⟨⟨⟨⟨ha, hl⟩, hd⟩, hs⟩, hp⟩ := hfound
  exact ⟨ha, hl, by rw [Conn.key, hd, hs, hp]⟩

theorem findConnByTuple_none (h : s.findConnByTuple dstIp srcPort dstPort = none) (j : ConnId)
    (hj : (s.conns j).matched = true) : (s.conns j).key ≠ (dstIp, srcPort, dstPort) := by
  intro hkey
  simp only [Conn.key, Prod.mk.injEq] at hkey
  obtain ⟨hd, hs, hp⟩ := hkey
  refine List.find?_eq_none.mp h j (List.mem_finRange j) ?_
  simp only [Conn.matched, Bool.and_eq_true] at hj
  simp only [hj.1, hj.2, hd, hs, hp, beq_self_eq_true, Bool.and_self]

theorem effect_tcpConnect (s : Stack) (dstIp : BitVec 32) (dstPort srcPort : BitVec 16) :
    Effect (Op.connect dstIp dstPort srcPort).asks s (s.tcpConnect dstIp dstPort srcPort).1 := by
  unfold tcpConnect
  split
  case h_2 => exact .keep rfl rfl
  case h_1 slot srcIp hslot _ =>
    obtain ⟨c, hkin, hconns, hlog⟩ := sendSegment_setConn
      {s with nextIsn := s.nextIsn + 1000#32, log := .connect slot :: s.log} slot
      ⟨true, .synSent, false, srcIp, dstIp, srcPort, dstPort, s.nextIsn, 0#32, [], none⟩ flagSyn []
    refine .opens slot c (.connect slot) (findSlot_inactive hslot)
      ⟨hkin.active, hkin.accepted, hkin.live nofun⟩ (.connect ?_ hkin.key) hconns hlog
    exact fun hl => nomatch hkin.listen.mp hl

theorem effect_tcpListen (s : Stack) (port : BitVec 16) :
    Effect (Op.listen port).asks s (s.tcpListen port).1 := by
  unfold tcpListen
  split
  case h_1 => exact .keep rfl rfl
  case h_2 slot hslot =>
    let c : Conn := ⟨true, .listen, false, 0#32, 0#32, port, 0#16, 0#32, 0#32, [], none⟩
    have hlive : c.state ≠ .closed := nofun
    exact .opens slot c (.listen slot) (findSlot_inactive hslot) ⟨rfl, rfl, hlive⟩
      (.listen rfl trivial) rfl rfl

/-- What `tcp_accept` hands out. -/
theorem tcpAccept_some {l : ConnId} (h : (s.tcpAccept l).2 = some i) :
    (s.conns i).active = true ∧ (s.conns i).accepted = false ∧
      (s.conns i).srcPort = (s.conns l).srcPort ∧ (s.conns i).state ≠ .listen := by
  unfold tcpAccept at h
  split at h
  · exact nomatch h
  split at h
  case h_1 => exact nomatch h
  case h_2 j hj =>
    obtain rfl : j = i := Option.some.inj h
    have hfound := List.find?_some hj
    simp only [acceptable, Bool.and_eq_true, Bool.not_eq_true', beq_iff_eq, Bool.or_eq_true]
      at hfound
    obtain ⟨⟨⟨⟨-, ha⟩, hfirst⟩, hport⟩, hstate⟩ := hfound
    refine ⟨ha, hfirst, hport, fun hl => ?_⟩
    rw [hl] at hstate
    exact hstate.elim (fun h => nomatch h) fun h => nomatch h

theorem effect_tcpAccept (s : Stack) (l : ConnId) :
    Effect (Op.accept l).asks s (s.tcpAccept l).1 := by
  unfold tcpAccept
  split
  · exact .keep rfl rfl
  split
  case h_1 => exact .keep rfl rfl
  case h_2 i hi =>
    have hfound := List.find?_some hi
    simp only [acceptable, Bool.and_eq_true, Bool.not_eq_true'] at hfound
    obtain ⟨⟨⟨⟨-, ha⟩, hfirst⟩, -⟩, -⟩ := hfound
    exact .accepts i ha hfirst trivial rfl rfl

theorem effect_tcpSend (s : Stack) (i : ConnId) (data : List Byte) :
    Effect asks s (s.tcpSend i data).1 := by
  unfold tcpSend
  dsimp only
  split
  case isTrue => exact .keep rfl rfl
  case isFalse hopen =>
    obtain ⟨c, hkin, hconns, hlog⟩ := sendSegment_conns s i (flagAck ||| flagPsh) data
    have ha : (s.conns i).active = true := by
      by_contra hx
      exact hopen (by simp [hx])
    exact .touch i c ha hkin hconns hlog

theorem effect_tcpRecv (s : Stack) (i : ConnId) (maxLen : Nat) :
    Effect asks s (s.tcpRecv i maxLen).1 := by
  unfold tcpRecv
  dsimp only
  split
  case isTrue => exact .keep rfl rfl
  case isFalse ha =>
    exact .touch i {s.conns i with recvBuf := (s.conns i).recvBuf.drop maxLen}
      (by simpa using ha) ⟨rfl, rfl, rfl, rfl, rfl, rfl, Iff.rfl, id⟩ rfl rfl

theorem effect_tcpClose (s : Stack) (i : ConnId) : Effect asks s (s.tcpClose i) := by
  unfold tcpClose
  dsimp only
  split
  case isTrue => exact .keep rfl rfl
  case isFalse ha =>
    have ha : (s.conns i).active = true := by simpa using ha
    have hgone (s₁ : Stack) (c : Conn) (hc : s₁.conns = update s.conns i c)
        (hl : s₁.log = s.log) : Effect asks s ((s₁.setConn i
          {s₁.conns i with recvBuf := [], rt := none, active := false, state := .closed}).record
          (.close i)) := by
      refine .closes i
        {s₁.conns i with recvBuf := [], rt := none, active := false, state := .closed} ha rfl ?_
        (congrArg _ hl)
      show update s₁.conns i _ = _
      rw [hc, update_idem]
    split
    · obtain ⟨c, -, hconns, hlog⟩ := sendSegment_setConn s i {s.conns i with state := .finWait1}
        (flagFin ||| flagAck) []
      exact hgone _ c hconns hlog
    · obtain ⟨c, -, hconns, hlog⟩ := sendSegment_setConn s i {s.conns i with state := .lastAck}
        (flagFin ||| flagAck) []
      exact hgone _ c hconns hlog
    · exact hgone s (s.conns i) (update_eq_self i s.conns).symm rfl

theorem effect_tickConn (s : Stack) (i : ConnId) : Effect asks s (s.tickConn i) := by
  unfold tickConn
  dsimp only
  split
  · exact .keep rfl rfl
  case h_2 r hr =>
  split
  · exact .keep rfl rfl
  case isFalse hdue =>
    have ha : (s.conns i).active = true := by
      by_contra hx
      exact hdue (by simp [hx])
    split
    · exact .closes i
        {s.conns i with rt := none, recvBuf := [], active := false, state := .closed} ha rfl rfl rfl
    exact .touch i {s.conns i with rt := some (r.again s.now)} ha
      ⟨rfl, rfl, rfl, rfl, rfl, rfl, Iff.rfl, id⟩
      (quiet_ipSend _ _ _).conns (quiet_ipSend _ _ _).log

theorem effect_handleSegment (s : Stack) (hask : ∀ i port c, asks (.spawn i port) c)
    (seg : Segment) (srcIp dstIp : BitVec 32) : Effect asks s (s.handleSegment seg srcIp dstIp) := by
  unfold handleSegment
  split
  case h_1 hnone =>
    unfold unmatched
    split
    · exact .keep rfl rfl
    split
    case h_1 _ slot _ hslot =>
      obtain ⟨c, hkin, hconns, hlog⟩ := sendSegment_setConn
        {s with nextIsn := s.nextIsn + 1000#32, log := .spawn slot seg.dstPort :: s.log} slot
        ⟨true, .synRcvd, false, dstIp, srcIp, seg.dstPort, seg.srcPort, s.nextIsn,
          seg.seq + 1#32, [], none⟩ (flagSyn ||| flagAck) []
      have hevent : Event.spawn slot seg.dstPort = .spawn slot c.srcPort := by rw [hkin.srcPort]
      refine .opens slot c (.spawn slot c.srcPort) (findSlot_inactive hslot)
        ⟨hkin.active, hkin.accepted, hkin.live nofun⟩ (.spawn ?_ ?_ (hask _ _ _)) hconns
        (hlog.trans (by rw [hevent]))
      · exact fun hl => nomatch hkin.listen.mp hl
      · intro j hj
        rw [hkin.key]
        exact findConnByTuple_none hnone j hj
    case h_2 =>
      have hquiet := quiet_ipSend s srcIp (encode dstIp srcIp 0#16
        ⟨seg.dstPort, seg.srcPort, 0#32, seg.seq + 1#32, flagRst ||| flagAck, []⟩)
      exact .keep hquiet.conns hquiet.log
  case h_2 i hi =>
    have hkin := kin_receive (s.conns i) seg
    have ha := (findConnByTuple_matched hi).1
    dsimp only
    split
    · obtain ⟨c, hkin', hconns, hlog⟩ :=
        sendSegment_setConn s i ((s.conns i).receive seg).1 flagAck []
      exact .touch i c ha (hkin.trans hkin') hconns hlog
    · exact .touch i _ ha hkin rfl rfl

theorem effect_ipHandlePacket (s : Stack) (hask : ∀ i port c, asks (.spawn i port) c)
    (d : Datagram) : Effect asks s (s.ipHandlePacket d) := by
  unfold ipHandlePacket tcpHandlePacket
  split
  · split
    · exact .keep rfl rfl
    · exact effect_handleSegment s hask _ _ _
  · exact .keep rfl rfl

theorem Effect.of_eq (hc : s'.conns = s.conns) (hl : s'.log = s.log) (h : Effect asks s' s'') :
    Effect asks s s'' := by
  have hopening {i : ConnId} {c : Conn} {e : Event} (he : Opening asks s' i c e) :
      Opening asks s i c e := by
    cases he with
    | connect hstate hask => exact .connect hstate hask
    | listen hstate hask => exact .listen hstate hask
    | spawn hstate hkey hask => exact .spawn hstate (by rw [← hc]; exact hkey) hask
  cases h with
  | keep hc' hl' => exact .keep (hc'.trans hc) (hl'.trans hl)
  | touch i c ha hk hc' hl' =>
    rw [hc] at ha hk hc'
    exact .touch i c ha hk hc' (hl'.trans hl)
  | opens i c e ha hnew he hc' hl' =>
    rw [hc] at ha hc'
    exact .opens i c e ha hnew (hopening he) hc' (hl'.trans (by rw [hl]))
  | closes i c ha hgone hc' hl' =>
    rw [hc] at ha hc'
    exact .closes i c ha hgone hc' (hl'.trans (by rw [hl]))
  | accepts i ha hfirst hask hc' hl' =>
    rw [hc] at ha hfirst hask hc'
    exact .accepts i ha hfirst hask hc' (hl'.trans (by rw [hl]))

theorem effect_deliver (s : Stack) (hask : ∀ i port c, asks (.spawn i port) c) :
    Effect asks s s.deliver := by
  unfold deliver
  split
  · exact .keep rfl rfl
  case h_2 d rest _ =>
    have h : Effect asks {s with ring := rest} ({s with ring := rest}.ipHandlePacket d) :=
      effect_ipHandlePacket _ hask d
    exact @Effect.of_eq _ s {s with ring := rest} _ rfl rfl h

theorem effect_step (s : Stack) {op : Op} (h : op ≠ .tick) : Effect op.asks s (s.step op) := by
  cases op with
  | connect => exact effect_tcpConnect s ..
  | listen port => exact effect_tcpListen s port
  | accept l => exact effect_tcpAccept s l
  | send => exact effect_tcpSend s ..
  | recv => exact effect_tcpRecv s ..
  | close i => exact effect_tcpClose s i
  | tick => exact absurd rfl h
  | clock now => exact .keep rfl rfl
  | packet d => exact effect_ipHandlePacket s (fun _ _ _ => trivial) d
  | deliver => exact effect_deliver s fun _ _ _ => trivial
  | debugDrop n => exact .keep rfl rfl

/-- What one effect keeps an operation keeps. The timer has an effect on each connection in
turn. -/
theorem step_keeps (op : Op) {P : Stack → Prop} (hs : P s) (hone : ∀ s', Effect op.asks s s' → P s')
    (hmany : ∀ s s', P s → Effect (fun _ _ => False) s s' → P s') : P (s.step op) := by
  by_cases htick : op = .tick
  · subst htick
    show P ((List.finRange tcpMaxConns).foldl tickConn s)
    generalize List.finRange tcpMaxConns = is
    clear hone
    induction is generalizing s with
    | nil => exact hs
    | cons i rest ih => exact ih (hmany s _ hs (effect_tickConn s i))
  · exact hone _ (effect_step s htick)

end

end Nyx.Net
