import Nyx.Lib.Run
import Nyx.Net.Effects

/-! Which connection a packet belongs to.

Packets are matched by the remote address and the two ports. A child of a listener gets a key that
no connection has, because the lookup for its SYN failed; `tcp_connect` does not look. As long as
what it dials is new, no two connections have the same key (`Unambiguous`). A connection that
`tcp_accept` may hand out was opened by a peer, or dialled by ourselves from a port that is
listened on (`Origins`). -/
namespace Nyx.Net
open Lib Function

/-- The last thing that happened to an entry of the connection table. -/
def lastOf (log : List Event) (i : ConnId) : Option Event := log.find? fun e => e.conn == i

namespace Stack

variable (s : Stack)

def Unambiguous : Prop :=
  ∀ i j, (s.conns i).matched = true → (s.conns j).matched = true →
    (s.conns i).key = (s.conns j).key → i = j

/-- A connection that was not accepted yet was dialled or is a listener's child. -/
def Origins : Prop :=
  ∀ i, (s.conns i).matched = true → (s.conns i).accepted = false →
    lastOf s.log i = some (.connect i) ∨ lastOf s.log i = some (.spawn i (s.conns i).srcPort)

def DialsNew : Op → Prop
  | .connect dstIp dstPort srcPort =>
    ∀ j, (s.conns j).matched = true → (s.conns j).key ≠ (dstIp, srcPort, dstPort)
  | _ => True

end Stack

section
variable {asks : Event → Conn → Prop} {s s' : Stack} {i j l : ConnId} {c : Conn} {e : Event}
  {log : List Event} {op : Op}

theorem lastOf_cons_self (h : e.conn = i) : lastOf (e :: log) i = some e := by
  rw [lastOf, List.find?_cons_of_pos]
  exact beq_iff_eq.mpr h

theorem lastOf_cons_ne (h : e.conn ≠ i) : lastOf (e :: log) i = lastOf log i := by
  rw [lastOf, List.find?_cons_of_neg, lastOf]
  exact fun hx => h (beq_iff_eq.mp hx)

/-- One connection is replaced by one that is not matched, or has no key of another. -/
theorem Stack.Unambiguous.update (h : s.Unambiguous) (hc : s'.conns = update s.conns i c)
    (hnew : c.matched = true → ∀ j, j ≠ i → (s.conns j).matched = true →
      (s.conns j).key ≠ c.key) : s'.Unambiguous := by
  intro a b ha hb hab
  rw [hc] at ha hb hab
  by_cases hai : a = i
  · by_cases hbi : b = i
    · rw [hai, hbi]
    · rw [update_of_ne hbi] at hb hab
      rw [hai, update_self] at ha hab
      exact absurd hab.symm (hnew ha b hbi hb)
  · rw [update_of_ne hai] at ha hab
    by_cases hbi : b = i
    · rw [hbi, update_self] at hb hab
      exact absurd hab (hnew hb a hai ha)
    rw [update_of_ne hbi] at hb hab
    exact h a b ha hb hab

theorem unambiguous_effect (h : s.Unambiguous) (he : Effect asks s s')
    (hdial : ∀ i c, asks (.connect i) c → ∀ j, (s.conns j).matched = true →
      (s.conns j).key ≠ c.key) :
    s'.Unambiguous := by
  -- a connection that keeps its key stays apart from the others
  have hkeep {i : ConnId} {c : Conn} (hm : c.matched = (s.conns i).matched)
      (hkey : c.key = (s.conns i).key) (hc : s'.conns = update s.conns i c) :
      s'.Unambiguous := by
    refine h.update hc fun hmatched j hj hjm hjk => hj ?_
    rw [hm] at hmatched
    rw [hkey] at hjk
    exact h j i hjm hmatched hjk
  cases he with
  | keep hc => rwa [Stack.Unambiguous, hc]
  | touch i c _ hk hc => exact hkeep hk.matched hk.key hc
  | opens i c e _ _ he hc =>
    refine h.update hc fun hmatched j _ hj => ?_
    cases he with
    | connect _ hd => exact hdial i c hd j hj
    | listen hl => simp [Conn.matched, hl] at hmatched
    | spawn _ hkey => exact hkey j hj
  | closes i c _ hgone hc =>
    refine h.update hc fun hmatched => ?_
    simp [Conn.matched, hgone] at hmatched
  | accepts i _ _ _ hc => exact hkeep (c := {s.conns i with accepted := true}) rfl rfl hc

theorem origins_effect (h : s.Origins) (he : Effect asks s s') : s'.Origins := by
  intro j hj hacc
  cases he with
  | keep hc hl =>
    rw [hc] at hj hacc ⊢
    rw [hl]
    exact h j hj hacc
  | touch i c _ hk hc hl =>
    rw [hc] at hj hacc ⊢
    rw [hl]
    by_cases hji : j = i
    · subst hji
      rw [update_self] at hj hacc ⊢
      rw [hk.srcPort]
      exact h j (hk.matched ▸ hj) (hk.accepted ▸ hacc)
    · rw [update_of_ne hji] at hj hacc ⊢
      exact h j hj hacc
  | opens i c e _ _ he hc hl =>
    rw [hc] at hj hacc ⊢
    rw [hl]
    by_cases hji : j = i
    · subst hji
      rw [update_self] at hj ⊢
      cases he with
      | connect => exact .inl (lastOf_cons_self rfl)
      | listen hlisten => simp [Conn.matched, hlisten] at hj
      | spawn => exact .inr (lastOf_cons_self rfl)
    · rw [update_of_ne hji] at hj hacc ⊢
      have hconn : e.conn = i := by
        cases he
        all_goals rfl
      rw [lastOf_cons_ne fun hx => hji (hx.symm.trans hconn)]
      exact h j hj hacc
  | closes i c _ hgone hc hl =>
    rw [hc] at hj hacc ⊢
    by_cases hji : j = i
    · subst hji
      rw [update_self, Conn.matched, hgone] at hj
      exact absurd hj Bool.false_ne_true
    · rw [update_of_ne hji] at hj hacc ⊢
      rw [hl, lastOf_cons_ne fun hx => hji hx.symm]
      exact h j hj hacc
  | accepts i _ _ _ hc hl =>
    rw [hc] at hj hacc ⊢
    by_cases hji : j = i
    · subst hji
      rw [update_self] at hacc
      exact Bool.noConfusion hacc
    · rw [update_of_ne hji] at hj hacc ⊢
      rw [hl, lastOf_cons_ne fun hx => hji hx.symm]
      exact h j hj hacc

theorem demux_step (h : s.Unambiguous ∧ s.Origins) (hr : s.DialsNew op) :
    (s.step op).Unambiguous ∧ (s.step op).Origins := by
  refine step_keeps op (P := fun s => s.Unambiguous ∧ s.Origins) h (fun s' he => ?_)
    fun s s' hs he => ?_
  · refine ⟨unambiguous_effect h.1 he fun i c hc j hj => ?_, origins_effect h.2 he⟩
    cases op with
    | connect dstIp dstPort srcPort =>
      rw [show c.key = (dstIp, srcPort, dstPort) from hc]
      exact hr j hj
    | _ => exact hc.elim
  · exact ⟨unambiguous_effect hs.1 he fun i c hc => hc.elim, origins_effect hs.2 he⟩

/-- In a run that dials no key twice, connections have different endpoints. And what `tcp_accept`
hands out for a listener was opened by a peer on that port and not handed out since, if nothing
was dialled from that port. -/
theorem demux_unambiguous {nics : List (BitVec 32)} {resolves : BitVec 32 → Bool}
    {memory : Nat → Bool} {ops : List Op}
    (h : Admissible Stack.step Stack.DialsNew (Stack.boot nics resolves memory) ops) :
    let s := run Stack.step (Stack.boot nics resolves memory) ops
    (∀ i j, (s.conns i).active = true → (s.conns i).state ≠ .listen → (s.conns j).active = true →
        (s.conns j).state ≠ .listen → (s.conns i).srcIp = (s.conns j).srcIp →
        (s.conns i).srcPort = (s.conns j).srcPort → (s.conns i).dstIp = (s.conns j).dstIp →
        (s.conns i).dstPort = (s.conns j).dstPort → i = j) ∧
      ∀ l i, (s.tcpAccept l).2 = some i →
        (∀ j, lastOf s.log j = some (.connect j) → (s.conns j).active = true →
          (s.conns j).srcPort ≠ (s.conns l).srcPort) →
        lastOf s.log i = some (.spawn i (s.conns l).srcPort) := by
  intro s
  have hinv : s.Unambiguous ∧ s.Origins := by
    refine run_invariant (P := fun s => s.Unambiguous ∧ s.Origins) (fun _ _ => demux_step) _ ops
      ⟨?_, ?_⟩ h
    · intro i _ hi
      exact nomatch hi
    · intro i hi
      exact nomatch hi
  have hmatched {i : ConnId} (ha : (s.conns i).active = true) (hl : (s.conns i).state ≠ .listen) :
      (s.conns i).matched = true := by
    simp [Conn.matched, ha, hl]
  refine ⟨fun i j hia hil hja hjl _ hsp hdi hdp => ?_, fun l i hacc hdialled => ?_⟩
  · refine hinv.1 i j (hmatched hia hil) (hmatched hja hjl) ?_
    rw [Conn.key, Conn.key, hsp, hdi, hdp]
  obtain ⟨ha, hfirst, hport, hstate⟩ := tcpAccept_some hacc
  rcases hinv.2 i (hmatched ha hstate) hfirst with hconn | hspawn
  · exact absurd hport (hdialled i hconn ha)
  · rwa [hport] at hspawn

end

/-- A machine without a network card, where there is always memory. -/
def loopbackOnly : Stack := .boot [] (fun _ => false) fun _ => true

/-- A client that dials the echo port over the loopback device, up to the end of the handshake. -/
def dialEcho : List Op :=
  [.listen 7#16, .connect Stack.loopbackIp 7#16 40000#16, .deliver, .deliver, .deliver]

/-- The listener's child is handed out, and it was opened by the client's SYN. -/
theorem demux_unambiguous_echo :
    let s := run Stack.step loopbackOnly dialEcho
    (s.tcpAccept 0).2 = some 2 ∧ lastOf s.log 2 = some (.spawn 2 7#16) := by
  have hnew : ∀ j, ((loopbackOnly.step (.listen 7#16)).conns j).matched = true →
      ((loopbackOnly.step (.listen 7#16)).conns j).key ≠ (Stack.loopbackIp, 40000#16, 7#16) := by
    decide +kernel
  have hadm : Admissible Stack.step Stack.DialsNew loopbackOnly dialEcho :=
    ⟨trivial, hnew, trivial, trivial, trivial, trivial⟩
  have hacc : ((run Stack.step loopbackOnly dialEcho).tcpAccept 0).2 = some 2 := by decide +kernel
  exact ⟨hacc, (demux_unambiguous hadm).2 0 2 hacc (by decide +kernel)⟩

/-- With a listener on the port that the client dials from, that listener is handed the client's
own connection. And two clients that dial one server from one port have connections with the same
endpoints. -/
theorem accept_hands_out_dialled :
    let s := run Stack.step loopbackOnly (.listen 40000#16 :: dialEcho)
    let s' := run Stack.step loopbackOnly [.connect Stack.loopbackIp 80#16 12346#16,
      .connect Stack.loopbackIp 80#16 12346#16]
    ((s.tcpAccept 0).2 = some 2 ∧ lastOf s.log 2 = some (.connect 2) ∧ (s.conns 2).dstPort = 7#16) ∧
      ∀ i : ConnId, i = 0 ∨ i = 1 → (s'.conns i).active = true ∧ (s'.conns i).state = .synSent ∧
        (s'.conns i).key = (Stack.loopbackIp, 12346#16, 80#16) := by
  decide +kernel

end Nyx.Net
