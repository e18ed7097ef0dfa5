import Nyx.Net.Demux
import Nyx.Net.Sockets
import Nyx.Net.Track

/-! Which socket a connection belongs to.

A socket keeps the index of its connection, and entries of the connection table are used again. The
index still means the connection that the socket was given if that entry was not opened since
(`Owned.since`). The timer may free the entry of a connection that a socket still refers to, and a
socket that is given a second connection forgets the first; `Orderly` excludes both. -/
namespace Nyx.Net
open Lib Function Stack Host

/-- What an operation of the stack does to connection `c`. -/
inductive Fate (asks : Event → Conn → Prop) (s s' : Stack) (c : ConnId) : Prop
  | same (hkin : Kin (s.conns c) (s'.conns c)) (hlast : lastOf s'.log c = lastOf s.log c)
      (hbirths : births s'.log c = births s.log c)
  | opened (e : Event) (ha : (s.conns c).active = false)
      (hnew : (s'.conns c).active = true ∧ (s'.conns c).accepted = false ∧
        (s'.conns c).state ≠ .closed)
      (he : Opening asks s c (s'.conns c) e) (hlast : lastOf s'.log c = some e)
      (hbirths : births s'.log c ≠ births s.log c)
  | closed (hgone : (s'.conns c).active = false) (hbirths : births s'.log c = births s.log c)
  | accepted (ha : (s.conns c).active = true) (hask : asks (.accept c) (s.conns c))
      (hconn : s'.conns c = {s.conns c with accepted := true})
      (hbirths : births s'.log c = births s.log c)

def HostOp.sock : HostOp → Option SockId
  | .connect k _ _ => some k
  | .listen k => some k
  | _ => none

/-- The packet is a SYN for a listener, and of no connection there is. -/
def Stack.spawns (s : Stack) (d : Datagram) : Bool :=
  s.forUs d && (parse d.packet).any fun seg =>
    (s.findConnByTuple d.srcIp seg.dstPort seg.srcPort).isNone && !seg.has flagRst &&
      (seg.has flagSyn && !seg.has flagAck) && (s.findListener seg.dstPort).isSome

namespace Host

/-- The socket `k` refers to connection `c`. -/
def Holds (h : Host) (k : SockId) (c : ConnId) : Prop :=
  (h.socks k).inUse = true ∧ (h.socks k).tcpConn = some c

/-- The connection is a socket's, the echo service's or waits to be accepted. -/
def Kept (h : Host) (c : ConnId) : Prop :=
  (∃ k, h.Holds k c) ∨ h.echoListen = some c ∨ (∃ e, h.echoConns e = some c) ∨
    (h.stack.conns c).accepted = false ∧ ∃ port, lastOf h.stack.log c = some (.spawn c port)

structure Owned (h : Host) : Prop where
  since : ∀ k c, h.Holds k c → (h.socks k).since = births h.stack.log c
  once : ∀ k k' c, h.Holds k c → h.Holds k' c → (h.stack.conns c).active = true → k = k'
  kept : ∀ c, (h.stack.conns c).active = true → h.Kept c
  live : ∀ c, (h.stack.conns c).active = true → (h.stack.conns c).state ≠ .closed

/-- Would the operation open a connection? -/
def opens (h : Host) : HostOp → Bool
  | .connect k ip _ =>
    (h.socks k).inUse && (h.socks k).type == .stream && (h.stack.sourceIp ip).isSome
  | .listen k => (h.socks k).inUse && (h.socks k).localPort != 0#16
  | .packet d => h.stack.spawns d
  | .deliver => h.stack.ring.head?.any h.stack.spawns
  | _ => false

/-- An entry that an operation opens is not referred to by another socket. A socket is given a
connection only if it has none or lost the one it had, and a connection that is accepted is not a
socket's and finds an entry in the table of who accepts it. -/
def Orderly (h : Host) (op : HostOp) : Prop :=
  (h.opens op = true → ∀ c, h.stack.findSlot = some c → ∀ k, h.Holds k c → op.sock = some k) ∧
    match op with
    | .connect k _ _ => ∀ c, h.Holds k c → (h.stack.conns c).active = false
    | .listen k => ∀ c, h.Holds k c → (h.stack.conns c).active = false
    | .accept k => ∀ l c, h.Holds k l → (h.stack.tcpAccept l).2 = some c →
        h.freeSock ≠ none ∧ ∀ k', ¬h.Holds k' c
    | .echoAdopt => ∀ l c, h.echoListen = some l → (h.stack.tcpAccept l).2 = some c →
        h.freeEcho ≠ none
    | _ => True

end Host

section
variable {asks : Event → Conn → Prop} {s s' : Stack} {h h' : Host} {c i : ConnId} {k : SockId}
  {e : Event} {log : List Event}

/-! ### The log -/

theorem births_cons (e : Event) (log : List Event) (c : ConnId) :
    births (e :: log) c = births log c + if e.opens && e.conn == c then 1 else 0 := List.countP_cons

theorem births_cons_of_not (hne : e.opens = false ∨ e.conn ≠ c) :
    births (e :: log) c = births log c := by
  rw [births_cons, if_neg, Nat.add_zero]
  rcases hne with hx | hx <;> simp [hx]

theorem births_cons_self (ho : e.opens = true) (hc : e.conn = c) :
    births (e :: log) c ≠ births log c := by
  rw [births_cons, if_pos (by simp [ho, hc])]
  exact Nat.succ_ne_self _

variable {conn : Conn}

theorem Opening.event (ho : Opening asks s i conn e) : e.opens = true ∧ e.conn = i := by
  cases ho <;> exact ⟨rfl, rfl⟩

/-- An operation that is about connection `i` leaves the others as they are. -/
theorem Fate.of_ne (hci : c ≠ i) (hc : s'.conns = update s.conns i conn) (hl : s'.log = e :: s.log)
    (he : e.conn = i) : Fate asks s s' c := by
  have hec : e.conn ≠ c := fun hx => hci (hx.symm.trans he)
  refine .same ?_ ?_ ?_
  · rw [hc, update_of_ne hci]
    exact .refl _
  · rw [hl, lastOf_cons_ne hec]
  · rw [hl, births_cons_of_not (.inr hec)]

theorem Effect.fate (he : Effect asks s s') (c : ConnId) : Fate asks s s' c := by
  cases he with
  | keep hc hl => exact .same (hc ▸ .refl _) (hl ▸ rfl) (hl ▸ rfl)
  | touch i conn _ hk hc hl =>
    refine .same ?_ (hl ▸ rfl) (hl ▸ rfl)
    rw [hc]
    by_cases hci : c = i
    · subst hci
      rwa [update_self]
    rw [update_of_ne hci]
    exact .refl _
  | opens i conn e ha hnew he hc hl =>
    obtain ⟨hopens, hconn⟩ := he.event
    by_cases hci : c = i
    · subst hci
      have hself : s'.conns c = conn := by rw [hc, update_self]
      rw [← hself] at hnew he
      refine .opened e ha hnew he ?_ ?_
      · rw [hl, lastOf_cons_self hconn]
      · rw [hl]
        exact births_cons_self hopens hconn
    · exact .of_ne hci hc hl hconn
  | closes i conn _ hgone hc hl =>
    by_cases hci : c = i
    · subst hci
      refine .closed ?_ ?_
      · rw [hc, update_self, hgone]
      · rw [hl, births_cons_of_not (.inl rfl)]
    · exact .of_ne hci hc hl rfl
  | accepts i ha _ hask hc hl =>
    by_cases hci : c = i
    · subst hci
      refine .accepted ha hask ?_ ?_
      · rw [hc, update_self]
      · rw [hl, births_cons_of_not (.inl rfl)]
    · exact .of_ne hci hc hl rfl

/-! ### What the stack does by itself -/

/-- The stack takes a step in which no connection is asked for or accepted: children may come, and
connections end. -/
theorem Host.Owned.effect (ho : h.Owned) (he : Effect asks h.stack s')
    (hconnect : ∀ i c, ¬asks (.connect i) c) (hlisten : ∀ i c, ¬asks (.listen i) c)
    (haccept : ∀ i c, ¬asks (.accept i) c)
    (hfresh : ∀ c, births s'.log c ≠ births h.stack.log c → ∀ k, ¬h.Holds k c) :
    {h with stack := s'}.Owned where
  since k c hk := by
    refine (ho.since k c hk).trans ?_
    by_contra hx
    exact hfresh c (fun hb => hx hb.symm) k hk
  once k k' c hk hk' ha := by
    cases he.fate c with
    | same hkin => exact ho.once k k' c hk hk' (hkin.active ▸ ha)
    | opened _ _ _ _ _ hbirths => exact absurd hk (hfresh c hbirths k)
    | closed hgone => exact nomatch hgone.symm.trans ha
    | accepted _ hask => exact absurd hask (haccept c _)
  kept c ha := by
    cases he.fate c with
    | same hkin hlast =>
      rcases ho.kept c (hkin.active ▸ ha) with hk | hl | hecho | ⟨hacc, hspawn⟩
      · exact .inl hk
      · exact .inr (.inl hl)
      · exact .inr (.inr (.inl hecho))
      · exact .inr (.inr (.inr ⟨hkin.accepted.trans hacc, hlast ▸ hspawn⟩))
    | opened e _ hnew hopen hlast =>
      cases hopen with
      | connect _ hask => exact absurd hask (hconnect c _)
      | listen _ hask => exact absurd hask (hlisten c _)
      | spawn => exact .inr (.inr (.inr ⟨hnew.2.1, _, hlast⟩))
    | closed hgone => exact nomatch hgone.symm.trans ha
    | accepted _ hask => exact absurd hask (haccept c _)
  live c ha := by
    cases he.fate c with
    | same hkin => exact hkin.live (ho.live c (hkin.active ▸ ha))
    | opened _ _ hnew => exact hnew.2.2
    | closed hgone => exact nomatch hgone.symm.trans ha
    | accepted _ hask => exact absurd hask (haccept c _)

/-- A step in which no connection is opened. -/
theorem Host.Owned.quiet (ho : h.Owned) (he : Effect (fun _ _ => False) h.stack s') :
    {h with stack := s'}.Owned := by
  refine ho.effect he (fun _ _ => id) (fun _ _ => id) (fun _ _ => id) fun c hb => ?_
  cases he.fate c with
  | same _ _ hbirths => exact absurd hbirths hb
  | opened _ _ _ hopen => rcases hopen with ⟨_, hask⟩ | ⟨_, hask⟩ | ⟨_, _, hask⟩ <;> exact hask.elim
  | closed _ hbirths => exact absurd hbirths hb
  | accepted _ _ _ hbirths => exact absurd hbirths hb

/-! ### Sockets come and go -/

/-- The sockets of the one host are those of the other, except that some are gone whose connections
have ended. -/
theorem Host.Owned.of_socks (ho : h.Owned) (hconns : h'.stack.conns = h.stack.conns)
    (hlog : h'.stack.log = h.stack.log) (hlisten : h'.echoListen = h.echoListen)
    (hecho : h'.echoConns = h.echoConns)
    (hnew : ∀ k c, h'.Holds k c → h.Holds k c ∧ (h'.socks k).since = (h.socks k).since)
    (hold : ∀ k c, h.Holds k c → (h.stack.conns c).active = true → h'.Holds k c) : h'.Owned where
  since k c hk := by
    rw [(hnew k c hk).2, ho.since k c (hnew k c hk).1, hlog]
  once k k' c hk hk' ha := ho.once k k' c (hnew k c hk).1 (hnew k' c hk').1 (hconns ▸ ha)
  kept c ha := by
    rw [hconns] at ha
    rw [Host.Kept, hconns, hlog, hlisten, hecho]
    exact (ho.kept c ha).imp_left fun ⟨k, hk⟩ => ⟨k, hold k c hk ha⟩
  live c ha := by
    rw [hconns] at ha ⊢
    exact ho.live c ha

/-- Socket `k`, which has no active connection, is given connection `c`, which is nobody's. -/
theorem Host.Owned.attach (ho : h.Owned) {sock : NSock} (huse : sock.inUse = true)
    (hlost : ∀ c', h.Holds k c' → (h.stack.conns c').active = false)
    (hother : ∀ k', k' ≠ k → ¬h.Holds k' c)
    (hsame : ∀ c', c' ≠ c → s'.conns c' = h.stack.conns c' ∧
      lastOf s'.log c' = lastOf h.stack.log c' ∧ births s'.log c' = births h.stack.log c')
    (hlive : (s'.conns c).state ≠ .closed) : ({h with stack := s'}.attach k sock c).Owned := by
  have hk : ({h with stack := s'}.attach k sock c).socks k =
      {sock with tcpConn := some c, since := births s'.log c} := setSock_self _ k _
  have hne (k' : SockId) (hk' : k' ≠ k) :
      ({h with stack := s'}.attach k sock c).socks k' = h.socks k' := setSock_of_ne _ _ hk'
  generalize hh' : {h with stack := s'}.attach k sock c = h' at hk hne ⊢
  have hstack : h'.stack = s' := hh' ▸ rfl
  have hlisten : h'.echoListen = h.echoListen := hh' ▸ rfl
  have hecho : h'.echoConns = h.echoConns := hh' ▸ rfl
  have hholds (k' : SockId) (c' : ConnId) (hc : h'.Holds k' c') :
      k' = k ∧ c' = c ∨ k' ≠ k ∧ c' ≠ c ∧ h.Holds k' c' := by
    by_cases hk' : k' = k
    · subst hk'
      rw [Host.Holds, hk] at hc
      exact .inl ⟨rfl, (Option.some.inj hc.2).symm⟩
    rw [Host.Holds, hne k' hk'] at hc
    refine .inr ⟨hk', ?_, hc⟩
    rintro rfl
    exact hother k' hk' hc
  refine ⟨fun k' c' hc => ?_, fun k₁ k₂ c' h₁ h₂ ha => ?_, fun c' ha => ?_, fun c' ha => ?_⟩
  · rw [hstack]
    rcases hholds k' c' hc with ⟨rfl, rfl⟩ | ⟨hk', hc', hold⟩
    · rw [hk]
    · rw [hne k' hk', ho.since k' c' hold, (hsame c' hc').2.2]
  · rw [hstack] at ha
    rcases hholds k₁ c' h₁ with ⟨rfl, rfl⟩ | ⟨-, hc₁, hold₁⟩
    · rcases hholds k₂ c' h₂ with ⟨rfl, -⟩ | ⟨-, hc₂, -⟩
      · rfl
      · exact absurd rfl hc₂
    · rcases hholds k₂ c' h₂ with ⟨-, hc₂⟩ | ⟨-, -, hold₂⟩
      · exact absurd hc₂ hc₁
      · exact ho.once k₁ k₂ c' hold₁ hold₂ ((hsame c' hc₁).1 ▸ ha)
  · rw [hstack] at ha
    by_cases hc' : c' = c
    · subst hc'
      exact .inl ⟨k, by rw [Host.Holds, hk]; exact ⟨huse, rfl⟩⟩
    obtain ⟨hconn, hlast, -⟩ := hsame c' hc'
    rw [hconn] at ha
    rw [Host.Kept, hstack, hlisten, hecho, hconn, hlast]
    refine (ho.kept c' ha).imp_left fun ⟨k', hold⟩ => ⟨k', ?_⟩
    have hk' : k' ≠ k := by
      rintro rfl
      exact nomatch (hlost c' hold).symm.trans ha
    rw [Host.Holds, hne k' hk']
    exact hold
  · rw [hstack] at ha ⊢
    by_cases hc' : c' = c
    · exact hc' ▸ hlive
    rw [(hsame c' hc').1] at ha ⊢
    exact ho.live c' ha

/-! ### The calls -/

theorem tcpConnect_eq (s : Stack) (dstIp : BitVec 32) (dstPort srcPort : BitVec 16) :
    ((s.tcpConnect dstIp dstPort srcPort).2 = none ∧ (s.tcpConnect dstIp dstPort srcPort).1 = s) ∨
      ∃ c conn, (s.findSlot = some c ∧ (s.sourceIp dstIp).isSome = true) ∧
        (s.tcpConnect dstIp dstPort srcPort).2 = some c ∧ conn.state ≠ .closed ∧
        (s.tcpConnect dstIp dstPort srcPort).1.conns = update s.conns c conn ∧
        (s.tcpConnect dstIp dstPort srcPort).1.log = .connect c :: s.log := by
  unfold tcpConnect
  split
  case h_2 => exact .inl ⟨rfl, rfl⟩
  case h_1 slot srcIp hslot hsrc =>
    obtain ⟨conn, hkin, hconns, hlog⟩ := sendSegment_setConn
      {s with nextIsn := s.nextIsn + 1000#32, log := .connect slot :: s.log} slot
      ⟨true, .synSent, false, srcIp, dstIp, srcPort, dstPort, s.nextIsn, 0#32, [], none⟩ flagSyn []
    exact .inr ⟨slot, conn, ⟨hslot, hsrc ▸ rfl⟩, rfl, hkin.live nofun, hconns, hlog⟩

theorem tcpListen_eq (s : Stack) (port : BitVec 16) :
    ((s.tcpListen port).2 = none ∧ (s.tcpListen port).1 = s) ∨
      ∃ c conn, s.findSlot = some c ∧ (s.tcpListen port).2 = some c ∧ conn.state ≠ .closed ∧
        (s.tcpListen port).1.conns = update s.conns c conn ∧
        (s.tcpListen port).1.log = .listen c :: s.log := by
  unfold tcpListen
  split
  case h_1 => exact .inl ⟨rfl, rfl⟩
  case h_2 slot hslot =>
    let conn : Conn := ⟨true, .listen, false, 0#32, 0#32, port, 0#16, 0#32, 0#32, [], none⟩
    have hlive : conn.state ≠ .closed := nofun
    exact .inr ⟨slot, conn, hslot, rfl, hlive, rfl, rfl⟩

theorem tcpAccept_eq {l : ConnId} : ((s.tcpAccept l).2 = none ∧ (s.tcpAccept l).1 = s) ∨
      ∃ c, (s.tcpAccept l).2 = some c ∧ (s.conns c).active = true ∧
        (s.tcpAccept l).1.conns = update s.conns c {s.conns c with accepted := true} ∧
        (s.tcpAccept l).1.log = .accept c :: s.log := by
  cases hc : (s.tcpAccept l).2 with
  | none =>
    refine .inl ⟨rfl, ?_⟩
    unfold tcpAccept at hc ⊢
    split
    · rfl
    case isFalse hl =>
      rw [if_neg hl] at hc
      split
      · rfl
      case h_2 c hfound =>
        rw [hfound] at hc
        exact nomatch hc
  | some c =>
    refine .inr ⟨c, rfl, (tcpAccept_some hc).1, ?_⟩
    unfold tcpAccept at hc ⊢
    split
    case isTrue hl =>
      rw [if_pos hl] at hc
      exact nomatch hc
    case isFalse hl =>
      rw [if_neg hl] at hc
      split
      case h_1 hnone =>
        rw [hnone] at hc
        exact nomatch hc
      case h_2 c' hfound =>
        rw [hfound] at hc
        obtain rfl : c' = c := Option.some.inj hc
        exact ⟨rfl, rfl⟩

/-- All connections but the one that an event is about. -/
theorem others_same (hconns : s'.conns = update s.conns c conn) (hlog : s'.log = e :: s.log)
    (he : e.conn = c) (c' : ConnId) (hc : c' ≠ c) :
    s'.conns c' = s.conns c' ∧ lastOf s'.log c' = lastOf s.log c' ∧
      births s'.log c' = births s.log c' := by
  have hec : e.conn ≠ c' := fun hx => hc (hx.symm.trans he)
  refine ⟨?_, ?_, ?_⟩
  · rw [hconns, update_of_ne hc]
  · rw [hlog, lastOf_cons_ne hec]
  · rw [hlog, births_cons_of_not (.inr hec)]

theorem Host.Owned.give (ho : h.Owned) {t : NSock} (huse : t.inUse = true)
    (hlost : ∀ c', h.Holds k c' → (h.stack.conns c').active = false)
    (hfresh : ∀ k', h.Holds k' c → some k = some k')
    (hlive : conn.state ≠ .closed) (hconns : s'.conns = update h.stack.conns c conn)
    (hlog : s'.log = e :: h.stack.log) (he : e.conn = c) :
    ({h with stack := s'}.attach k t c).Owned := by
  refine ho.attach huse hlost (fun k' hk' hold => ?_) (others_same hconns hlog he) ?_
  · exact hk' (Option.some.inj (hfresh k' hold)).symm
  · rwa [hconns, update_self]

theorem Host.Owned.connect (ho : h.Owned) {ip : BitVec 32} {port : BitVec 16}
    (hr : h.Orderly (.connect k ip port)) : (h.nsockConnect k ip port).Owned := by
  obtain ⟨hfresh, hlost⟩ := hr
  unfold nsockConnect
  split
  · exact ho
  case isFalse hvalid =>
    have huse : (h.socks k).inUse = true := by
      by_contra hx
      exact hvalid (by simp [hx])
    dsimp only
    rcases tcpConnect_eq h.stack ip port h.ephemeral with
      ⟨hnone, hstack⟩ | ⟨c, conn, ⟨hslot, hsrc⟩, hsome, hlive, hconns, hlog⟩
    · rw [hnone, hstack]
      exact ho.of_socks rfl rfl rfl rfl (fun k c hk => ⟨hk, rfl⟩) fun k c hk _ => hk
    rw [hsome]
    have hopens : h.opens (.connect k ip port) = true := by
      simpa [Host.opens, hsrc] using hvalid
    have hgiven := ho.give (t := h.socks k) huse hlost (hfresh hopens c hslot) hlive hconns hlog rfl
    exact hgiven.of_socks rfl rfl rfl rfl (fun k c hk => ⟨hk, rfl⟩) fun k c hk _ => hk

theorem Host.Owned.listen (ho : h.Owned) (hr : h.Orderly (.listen k)) :
    (h.nsockListen k).Owned := by
  obtain ⟨hfresh, hlost⟩ := hr
  unfold nsockListen
  split
  · exact ho
  case isFalse hvalid =>
    have huse : (h.socks k).inUse = true := by
      by_contra hx
      exact hvalid (by simp [hx])
    dsimp only
    rcases tcpListen_eq h.stack (h.socks k).localPort with
      ⟨hnone, hstack⟩ | ⟨c, conn, hslot, hsome, hlive, hconns, hlog⟩
    · rw [hnone, hstack]
      exact ho
    rw [hsome]
    have hopens : h.opens (.listen k) = true := by simpa [Host.opens] using hvalid
    exact ho.give (t := {h.socks k with listening := true}) huse hlost (hfresh hopens c hslot) hlive
      hconns hlog rfl

theorem freeSock_some {j : SockId} (hj : h.freeSock = some j) (c : ConnId) : ¬h.Holds j c := by
  have hfree := List.find?_some hj
  intro hx
  simp [hx.1] at hfree

section
variable (ho : h.Owned)
include ho

theorem Host.Owned.accept (hr : h.Orderly (.accept k)) : (h.nsockAccept k).1.Owned := by
  have hcand := hr.2
  unfold nsockAccept
  split
  · exact ho
  case h_2 l hl =>
  split
  · exact ho
  case isFalse hvalid =>
    have huse : (h.socks k).inUse = true := by
      by_contra hx
      exact hvalid (by simp [hx])
    dsimp only
    rcases tcpAccept_eq (s := h.stack) (l := l) with ⟨hnone, hstack⟩ | ⟨c, hsome, ha, hconns, hlog⟩
    · rw [hnone, hstack]
      exact ho
    obtain ⟨hroom, hnobody⟩ := hcand l c ⟨huse, hl⟩ hsome
    obtain ⟨j, hj⟩ := Option.ne_none_iff_exists'.mp hroom
    have hfree : {h with stack := (h.stack.tcpAccept l).1}.freeSock = some j := hj
    rw [hsome, hfree]
    refine ho.attach rfl (fun c' hx => absurd hx (freeSock_some hj c')) (fun k' _ => hnobody k')
      (others_same hconns hlog rfl) ?_
    rw [hconns, update_self]
    exact ho.live c ha

/-- A socket that refers to no connection takes the place of one that did not either. -/
theorem Host.Owned.setSock {sock : NSock} (hconns : s'.conns = h.stack.conns)
    (hlog : s'.log = h.stack.log) (hold : ∀ c, h.Holds k c → (h.stack.conns c).active = false)
    (hnew : sock.inUse = true → sock.tcpConn = none) :
    ({h with stack := s'}.setSock k sock).Owned := by
  have hself := setSock_self {h with stack := s'} k sock
  have hne (k' : SockId) (hk' : k' ≠ k) :
      ({h with stack := s'}.setSock k sock).socks k' = h.socks k' := setSock_of_ne _ sock hk'
  refine ho.of_socks hconns hlog rfl rfl (fun k' c hk' => ?_) fun k' c hk' ha => ?_
  · by_cases hkk : k' = k
    · subst hkk
      rw [Host.Holds, hself] at hk'
      exact nomatch (hnew hk'.1).symm.trans hk'.2
    · rw [Host.Holds, hne k' hkk] at hk'
      exact ⟨hk', by rw [hne k' hkk]⟩
  · by_cases hkk : k' = k
    · subst hkk
      exact nomatch (hold c hk').symm.trans ha
    · rw [Host.Holds, hne k' hkk]
      exact hk'

theorem Host.Owned.create (type : SockType) : (h.nsockCreate type).1.Owned := by
  unfold nsockCreate
  split
  · exact ho
  case h_2 k hk =>
    have hnot (c : ConnId) (hx : h.Holds k c) : (h.stack.conns c).active = false :=
      absurd hx (freeSock_some hk c)
    have hstack : (if type = .dgram then h.stack.kmalloc else (h.stack, true)).1.conns =
        h.stack.conns ∧ (if type = .dgram then h.stack.kmalloc else (h.stack, true)).1.log =
        h.stack.log := by
      split <;> exact ⟨rfl, rfl⟩
    dsimp only
    generalize (if type = .dgram then h.stack.kmalloc else (h.stack, true)) = r at hstack
    have hset (sock : NSock) (hsock : sock.tcpConn = none) :
        ({h with stack := r.1}.setSock k sock).Owned :=
      ho.setSock hstack.1 hstack.2 hnot fun _ => hsock
    split
    · exact hset {h.socks k with
        inUse := true, type, tcpConn := none, localPort := 0#16, listening := false} rfl
    exact hset {h.socks k with
      type, tcpConn := none, localPort := 0#16, listening := false} rfl

theorem Host.Owned.bind (k : SockId) (port : BitVec 16) : (h.nsockBind k port).Owned := by
  unfold nsockBind
  split
  · exact ho
  have hsocks (k' : SockId) :
      ((h.setSock k {h.socks k with localPort := port}).socks k').inUse = (h.socks k').inUse ∧
      ((h.setSock k {h.socks k with localPort := port}).socks k').tcpConn = (h.socks k').tcpConn ∧
      ((h.setSock k {h.socks k with localPort := port}).socks k').since = (h.socks k').since := by
    by_cases hk : k' = k
    · subst hk
      rw [setSock_self]
      exact ⟨rfl, rfl, rfl⟩
    · rw [setSock_of_ne _ _ hk]
      exact ⟨rfl, rfl, rfl⟩
  refine ho.of_socks rfl rfl rfl rfl (fun k' c hk' => ?_) fun k' c hk' _ => ?_
  · rw [Host.Holds, (hsocks k').1, (hsocks k').2.1] at hk'
    exact ⟨hk', (hsocks k').2.2⟩
  · rw [Host.Holds, (hsocks k').1, (hsocks k').2.1]
    exact hk'

theorem Host.Owned.send (k : SockId) (data : List Byte) : (h.nsockSend k data).1.Owned := by
  unfold nsockSend
  split
  · exact ho
  split
  · exact ho
  · exact ho.quiet (effect_tcpSend h.stack _ data)

theorem Host.Owned.recv (k : SockId) (len : Nat) : (h.nsockRecv k len).1.Owned := by
  unfold nsockRecv
  split
  · exact ho
  split
  · exact ho
  · exact ho.quiet (effect_tcpRecv h.stack _ len)

theorem Host.Owned.close (k : SockId) : (h.nsockClose k).Owned := by
  unfold nsockClose
  split
  · exact ho
  cases hc : (h.socks k).tcpConn with
  | none =>
    refine ho.setSock rfl rfl (fun c hx => ?_) fun _ => rfl
    exact nomatch hc.symm.trans hx.2
  | some c =>
    refine (ho.quiet (effect_tcpClose h.stack c)).setSock rfl rfl (fun c' hx => ?_) fun _ => rfl
    obtain rfl : c = c' := Option.some.inj (hc.symm.trans hx.2)
    cases ha : (h.stack.conns c).active with
    | true => exact tcpClose_self ha
    | false =>
      rw [tcpClose]
      rw [if_pos (by rw [ha]; rfl), ha]

end

/-! ### The echo service -/

theorem Host.Owned.adopt (ho : h.Owned) {l : ConnId}
    (hroom : ∀ c, (h.stack.tcpAccept l).2 = some c → h.freeEcho ≠ none) :
    (h.echoAdopt l).1.Owned := by
  unfold echoAdopt
  dsimp only
  rcases tcpAccept_eq (s := h.stack) (l := l) with ⟨hnone, hstack⟩ | ⟨c, hsome, ha, hconns, hlog⟩
  · rw [hnone, hstack]
    exact ho
  obtain ⟨e, he⟩ := Option.ne_none_iff_exists'.mp (hroom c hsome)
  have hfree : {h with stack := (h.stack.tcpAccept l).1}.freeEcho = some e := he
  rw [hsome]
  dsimp only
  rw [hfree]
  have hempty : h.echoConns e = none := by simpa using List.find?_some he
  have hactive (c' : ConnId) : ((h.stack.tcpAccept l).1.conns c').active =
        (h.stack.conns c').active ∧
      ((h.stack.tcpAccept l).1.conns c').state = (h.stack.conns c').state := by
    rw [hconns]
    by_cases hc : c' = c
    · subst hc
      rw [update_self]
      exact ⟨rfl, rfl⟩
    · rw [update_of_ne hc]
      exact ⟨rfl, rfl⟩
  refine ⟨fun k c' hk => ?_, fun k k' c' hk hk' hc => ?_, fun c' hc => ?_, fun c' hc => ?_⟩
  · exact (ho.since k c' hk).trans (by rw [hlog, births_cons_of_not (.inl rfl)])
  · exact ho.once k k' c' hk hk' ((hactive c').1 ▸ hc)
  · by_cases hcc : c' = c
    · refine .inr (.inr (.inl ⟨e, ?_⟩))
      dsimp only
      rw [update_self, hcc]
    · obtain ⟨hconn, hlast, -⟩ := others_same hconns hlog rfl c' hcc
      rcases ho.kept c' ((hactive c').1 ▸ hc) with hk | hl | ⟨e', he'⟩ | hspawn
      · exact .inl hk
      · exact .inr (.inl hl)
      · refine .inr (.inr (.inl ⟨e', ?_⟩))
        dsimp only
        rw [update_of_ne, he']
        rintro rfl
        exact nomatch hempty.symm.trans he'
      · refine .inr (.inr (.inr ?_))
        rw [hconn, hlast]
        exact hspawn
  · rw [(hactive c').2]
    exact ho.live c' ((hactive c').1 ▸ hc)

theorem Host.Owned.serve (ho : h.Owned) (e : EchoId) : (h.echoServe e).Owned := by
  unfold echoServe
  split
  · exact ho
  case h_2 c hc =>
  split
  case isTrue hstate =>
    -- only a connection that ended is dropped
    have hgone : (h.stack.conns c).active = false := by
      by_contra hx
      have ha : (h.stack.conns c).active = true := by simpa using hx
      rw [tcpState, if_pos ha] at hstate
      exact ho.live c ha hstate
    refine ⟨ho.since, ho.once, fun c' ha => ?_, ho.live⟩
    rcases ho.kept c' ha with hk | hl | ⟨e', he'⟩ | hspawn
    · exact .inl hk
    · exact .inr (.inl hl)
    · refine .inr (.inr (.inl ⟨e', ?_⟩))
      dsimp only
      rw [update_of_ne, he']
      rintro rfl
      obtain rfl : c = c' := Option.some.inj (hc.symm.trans he')
      exact nomatch hgone.symm.trans ha
    · exact .inr (.inr (.inr hspawn))
  case isFalse =>
    dsimp only
    have hrecv := ho.quiet (effect_tcpRecv h.stack c 512)
    split
    · exact hrecv.quiet (effect_tcpSend (h.stack.tcpRecv c 512).1 c _)
    · exact hrecv

/-! ### Packets -/

/-- A packet opens a connection only as a SYN for a listener, in the first free entry. -/
theorem spawns_of_births {d : Datagram} (hb : births (s.ipHandlePacket d).log c ≠ births s.log c) :
    s.spawns d = true ∧ s.findSlot = some c := by
  unfold ipHandlePacket at hb
  split at hb
  case isFalse => exact absurd rfl hb
  case isTrue hours =>
  unfold tcpHandlePacket at hb
  split at hb
  case h_1 => exact absurd rfl hb
  case h_2 seg hseg =>
  unfold handleSegment at hb
  split at hb
  case h_2 i _ =>
    dsimp only at hb
    split at hb
    · obtain ⟨_, -, -, hlog⟩ := sendSegment_setConn s i ((s.conns i).receive seg).1 flagAck []
      exact absurd (congrArg (births · c) hlog) hb
    · exact absurd rfl hb
  case h_1 hnone =>
  unfold unmatched at hb
  split at hb
  case isTrue => exact absurd rfl hb
  case isFalse hrst =>
  split at hb
  case h_2 => exact absurd (congrArg (births · c) (quiet_ipSend ..).log) hb
  case h_1 l slot hl hslot =>
    obtain ⟨_, -, -, hlog⟩ := sendSegment_setConn
      {s with nextIsn := s.nextIsn + 1000#32, log := .spawn slot seg.dstPort :: s.log} slot
      ⟨true, .synRcvd, false, d.dstIp, d.srcIp, seg.dstPort, seg.srcPort, s.nextIsn,
        seg.seq + 1#32, [], none⟩ (flagSyn ||| flagAck) []
    have hc : slot = c := by
      by_contra hne
      exact hb ((congrArg (births · c) hlog).trans (births_cons_of_not (.inr hne)))
    split at hl
    case isFalse => cases hl
    case isTrue hsyn =>
      refine ⟨?_, hc ▸ hslot⟩
      rw [Stack.spawns, hours, hseg]
      simp [hnone, hrst, hsyn, hl]

theorem spawns_of_deliver (hb : births s.deliver.log c ≠ births s.log c) :
    s.ring.head?.any s.spawns = true ∧ s.findSlot = some c := by
  unfold deliver at hb
  split at hb
  case h_1 => exact absurd rfl hb
  case h_2 d rest hring =>
    rw [hring]
    exact spawns_of_births (s := {s with ring := rest}) hb

/-! ### Runs -/

theorem Host.Owned.tick (ho : h.Owned) : (h.onStack .tick).Owned :=
  step_keeps .tick (P := fun s => {h with stack := s}.Owned) ho (fun _ he => ho.quiet he)
    fun _ _ hs he => hs.quiet he

theorem Host.Owned.step (ho : h.Owned) {op : HostOp} (hr : h.Orderly op) : (h.step op).Owned := by
  cases op with
  | socket type => exact ho.create type
  | connect k ip port => exact ho.connect hr
  | bind k port => exact ho.bind k port
  | listen k => exact ho.listen hr
  | accept k => exact ho.accept hr
  | send k data => exact ho.send k data
  | recv k len => exact ho.recv k len
  | close k => exact ho.close k
  | echoAdopt =>
    rw [Host.step]
    cases hl : h.echoListen with
    | none => exact ho
    | some l => exact ho.adopt fun c hc => hr.2 l c hl hc
  | echoServe e => exact ho.serve e
  | tick => exact ho.tick
  | clock now => exact ho.quiet (.keep rfl rfl)
  | packet d =>
    have he : Effect (Op.packet d).asks h.stack _ := effect_step h.stack nofun
    refine ho.effect he (fun _ _ => id) (fun _ _ => id) (fun _ _ => id) fun c hb k hk => ?_
    obtain ⟨hspawns, hslot⟩ := spawns_of_births hb
    exact nomatch hr.1 hspawns c hslot k hk
  | deliver =>
    have he : Effect Op.deliver.asks h.stack _ := effect_step h.stack nofun
    refine ho.effect he (fun _ _ => id) (fun _ _ => id) (fun _ _ => id) fun c hb k hk => ?_
    obtain ⟨hspawns, hslot⟩ := spawns_of_deliver hb
    exact nomatch hr.1 hspawns c hslot k hk
  | debugDrop n => exact ho.quiet (.keep rfl rfl)

theorem owned_boot (nics : List (BitVec 32)) (resolves : BitVec 32 → Bool)
    (memory : Nat → Bool) : (Host.boot nics resolves memory).Owned := by
  have hnone (k : SockId) (c : ConnId) : ¬(Host.boot nics resolves memory).Holds k c :=
    fun hk => nomatch hk.1
  -- the listener of the echo service is the only connection there is
  have hlistener (c : ConnId)
      (ha : ((Host.boot nics resolves memory).stack.conns c).active = true) :
      (Host.boot nics resolves memory).echoListen = some c ∧
        ((Host.boot nics resolves memory).stack.conns c).state ≠ .closed := by
    change (((Stack.boot nics resolves memory).tcpListen echoPort).1.conns c).active = true at ha
    show ((Stack.boot nics resolves memory).tcpListen echoPort).2 = some c ∧
      (((Stack.boot nics resolves memory).tcpListen echoPort).1.conns c).state ≠ .closed
    rcases tcpListen_eq (Stack.boot nics resolves memory) echoPort with
      ⟨-, hstack⟩ | ⟨l, conn, -, hsome, hlive, hconns, -⟩
    · rw [hstack] at ha
      exact nomatch ha
    rw [hconns] at ha ⊢
    by_cases hc : c = l
    · subst hc
      rw [update_self]
      exact ⟨hsome, hlive⟩
    · rw [update_of_ne hc] at ha
      exact nomatch ha
  exact ⟨fun k c hk => absurd hk (hnone k c), fun k _ c hk => absurd hk (hnone k c),
    fun c ha => .inr (.inl (hlistener c ha).1), fun c ha => (hlistener c ha).2⟩

/-- In every orderly run a socket's connection is the one it was given, no two sockets have the
same active connection, and every active connection is a socket's, the echo service's or a child
that waits to be accepted. -/
theorem sockets_owned {nics : List (BitVec 32)} {resolves : BitVec 32 → Bool}
    {memory : Nat → Bool} {ops : List HostOp}
    (hr : Admissible Host.step Host.Orderly (Host.boot nics resolves memory) ops) :
    (run Host.step (Host.boot nics resolves memory) ops).Owned :=
  run_invariant (P := Host.Owned) (fun _ _ ho hop => ho.step hop) _ ops
    (owned_boot nics resolves memory) hr

end

instance (h : Host) (k : SockId) (c : ConnId) : Decidable (h.Holds k c) :=
  inferInstanceAs (Decidable (_ ∧ _))

/-- A client of the echo service, up to its first word. -/
def helloEcho : List HostOp :=
  [.socket .stream, .connect 0 Stack.loopbackIp echoPort, .deliver, .deliver, .deliver, .echoAdopt,
    .send 0 [104#8]]

/-- Its socket refers to the connection that it dialled. -/
theorem sockets_owned_hello :
    let h := run Host.step (.boot [] (fun _ => false) fun _ => true) helloEcho
    (h.Holds 0 1 ∧ (h.stack.conns 1).active = true ∧ h.echoConns 0 = some 2) ∧ h.Owned := by
  intro h
  have hr : Admissible Host.step Host.Orderly (.boot [] (fun _ => false) fun _ => true)
      helloEcho := ⟨⟨by decide +kernel, trivial⟩, ⟨by decide +kernel, by decide +kernel⟩,
      ⟨by decide +kernel, trivial⟩, ⟨by decide +kernel, trivial⟩, ⟨by decide +kernel, trivial⟩,
      ⟨by decide +kernel, by decide +kernel⟩, ⟨by decide +kernel, trivial⟩, trivial⟩
  exact ⟨by decide +kernel, sockets_owned hr⟩

/-- A remote host that does not answer: the connection is given up, and the next socket is given
its entry. The first one still refers to it. -/
def twoCalls : List HostOp :=
  [.socket .stream, .connect 0 0x08080808#32 80#16, .clock 100000#32, .tick, .clock 200000#32, .tick,
    .clock 300000#32, .tick, .clock 400000#32, .tick, .clock 500000#32, .tick, .clock 600000#32,
    .tick, .socket .stream, .connect 1 0x08080808#32 80#16]

/-- Two sockets with one active connection, which only the second one dialled; and a socket that
is connected twice, after which its first connection is nobody's. -/
theorem socket_holds_recycled :
    let h := run Host.step (.boot [0x0F02000A#32] (fun _ => true) fun _ => true) twoCalls
    let g := run Host.step (.boot [] (fun _ => false) fun _ => true) [.socket .stream,
      .connect 0 Stack.loopbackIp echoPort, .connect 0 Stack.loopbackIp echoPort]
    (h.Holds 0 1 ∧ h.Holds 1 1 ∧ (h.stack.conns 1).active = true ∧
        (h.socks 0).since ≠ births h.stack.log 1) ∧
      (g.stack.conns 1).active = true ∧ (∀ k, ¬g.Holds k 1) ∧ g.echoListen ≠ some 1 ∧
        (∀ e, g.echoConns e ≠ some 1) ∧ lastOf g.stack.log 1 = some (.connect 1) := by
  decide +kernel

end Nyx.Net
