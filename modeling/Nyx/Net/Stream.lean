import Nyx.Net.Demux
import Nyx.Net.Track

/-! The byte stream that a connection receives.

`tcp_handle_packet` appends the data of every segment with an ACK to the receive buffer and
acknowledges its end; where the segment starts is not looked at. So what a process reads is a
prefix of the peer's stream exactly when each segment starts where the last ended (`InOrder`). -/
namespace Nyx.Net
open Lib Stack List

/-- What an operation hands to the reader of connection `i`. -/
def Stack.readBy (s : Stack) (i : ConnId) : Op → List Byte
  | .recv j maxLen => if j = i then (s.tcpRecv i maxLen).2.getD [] else []
  | _ => []

/-- A step of the network, with all that was read from connection `i` so far. -/
def reading (i : ConnId) (p : Stack × List Byte) (op : Op) : Stack × List Byte :=
  (p.1.step op, p.2 ++ p.1.readBy i op)

/-- The bytes that were taken in from connection `i`, read already or not. -/
def arrived (i : ConnId) (p : Stack × List Byte) : List Byte := p.2 ++ (p.1.conns i).recvBuf

/-- The segment carries the bytes of the stream that follow `got`, or ends the stream there. -/
def Segment.Continues (seg : Segment) (stream : List Byte) (irs : BitVec 32) (got : List Byte) :
    Prop := if seg.payload ≠ [] ∧ seg.has flagAck = true then
    seg.seq = irs + BitVec.ofNat 32 got.length ∧ got ++ seg.payload <+: stream
  else seg.has flagFin = true → seg.seq = irs + BitVec.ofNat 32 got.length ∧ got = stream

instance Segment.Continues.decidable (seg : Segment) (stream : List Byte) (irs : BitVec 32)
    (got : List Byte) : Decidable (seg.Continues stream irs got) := by
  unfold Segment.Continues
  infer_instance

/-- An operation that does not end connection `i`, and brings it no segment out of order. The
peer's first byte has the sequence number `irs`. -/
def InOrder (stream : List Byte) (irs : BitVec 32) (i : ConnId) (p : Stack × List Byte) (op : Op) :
    Prop := ((p.1.step op).conns i).active = true ∧
    ∀ seg ∈ p.1.segmentFor i op, seg.Continues stream irs (arrived i p)

instance InOrder.decidable (stream : List Byte) (irs : BitVec 32) (i : ConnId)
    (p : Stack × List Byte) (op : Op) : Decidable (InOrder stream irs i p op) :=
  inferInstanceAs (Decidable (_ ∧ _))

/-- The connection has taken in a prefix of the stream and acknowledged `k` sequence numbers: the
bytes of that prefix, and the FIN after the last one. -/
structure Follows (stream : List Byte) (irs : BitVec 32) (i : ConnId) (p : Stack × List Byte)
    (k : Nat) : Prop where
  active : (p.1.conns i).active = true
  isPrefix : arrived i p <+: stream
  ack : (p.1.conns i).ack = irs + BitVec.ofNat 32 k
  upTo : (p.1.conns i).state = .established ∧ k = (arrived i p).length ∨
    (p.1.conns i).state = .closeWait ∧ arrived i p = stream ∧ k = stream.length + 1

section
variable {stream : List Byte} {irs : BitVec 32} {i : ConnId} {p : Stack × List Byte} {k : Nat}
  {op : Op} {c : Conn} {seg : Segment}

/-- Only the fields that a reader sees matter. -/
theorem Follows.congr {p' : Stack × List Byte} (h : Follows stream irs i p k)
    (ha : (p'.1.conns i).active = true) (hgot : arrived i p' = arrived i p)
    (hack : (p'.1.conns i).ack = (p.1.conns i).ack)
    (hstate : (p'.1.conns i).state = (p.1.conns i).state) : Follows stream irs i p' k where
  active := ha
  isPrefix := hgot ▸ h.isPrefix
  ack := hack.trans h.ack
  upTo := by
    rw [hstate, hgot]
    exact h.upTo

/-! ### Reading -/

theorem arrived_recv (ha : (p.1.conns i).active = true) (maxLen : Nat) :
    arrived i (reading i p (.recv i maxLen)) = arrived i p := by
  have hrecv : p.1.tcpRecv i maxLen =
      (p.1.setConn i {p.1.conns i with recvBuf := (p.1.conns i).recvBuf.drop maxLen},
        some ((p.1.conns i).recvBuf.take maxLen)) := by
    rw [tcpRecv, if_neg (by simp [ha])]
  rw [arrived, reading, readBy, if_pos rfl, Stack.step, hrecv, setConn_self]
  dsimp only [Option.getD_some]
  rw [append_assoc, take_append_drop, arrived]

theorem readBy_nil (h : ∀ n, op ≠ .recv i n) (s : Stack) : s.readBy i op = [] := by
  cases op with
  | recv j n =>
    rw [readBy, if_neg]
    rintro rfl
    exact h n rfl
  | _ => rfl

/-! ### Segments -/

/-- After the handshake an ACK only clears the retransmission buffer. -/
theorem acked_eq (seg : Segment) (h : c.state ≠ .synRcvd) : ∃ rt, c.acked seg = {c with rt} := by
  unfold Conn.acked
  split
  · exact ⟨_, rfl⟩
  · exact ⟨c.rt, rfl⟩

theorem receive_data (hs : c.state ≠ .synRcvd) (h : seg.payload ≠ [] ∧ seg.has flagAck = true) :
    (c.receive seg).1.state = c.state ∧
      (c.receive seg).1.ack = seg.seq + BitVec.ofNat 32 seg.payload.length ∧
      (c.receive seg).1.recvBuf = c.recvBuf ++ seg.payload := by
  obtain ⟨rt, hacked⟩ := acked_eq seg hs
  rw [Conn.receive, hacked, if_pos h]
  exact ⟨rfl, rfl, rfl⟩

/-- A segment without data: a FIN moves an established connection on, and nothing else does. -/
theorem receive_empty (hs : c.state = .established ∨ c.state = .closeWait)
    (h : ¬(seg.payload ≠ [] ∧ seg.has flagAck = true)) :
    (c.receive seg).1.recvBuf = c.recvBuf ∧
      ((c.receive seg).1.state = c.state ∧ (c.receive seg).1.ack = c.ack ∨
        c.state = .established ∧ seg.has flagFin = true ∧
          (c.receive seg).1.state = .closeWait ∧ (c.receive seg).1.ack = seg.seq + 1#32) := by
  have hrcvd : c.state ≠ .synRcvd := by rcases hs with hs | hs <;> simp [hs]
  have hsent : c.state ≠ .synSent := by rcases hs with hs | hs <;> simp [hs]
  have hfinWait : c.state ≠ .finWait1 := by rcases hs with hs | hs <;> simp [hs]
  obtain ⟨rt, hacked⟩ := acked_eq seg hrcvd
  rw [Conn.receive, hacked, if_neg h]
  dsimp only
  rw [if_neg hsent, if_neg hfinWait]
  split
  · exact ⟨rfl, .inl ⟨rfl, rfl⟩⟩
  split
  case isTrue hfin =>
    split
    case isTrue hest => exact ⟨rfl, .inr ⟨hest, hfin, rfl, rfl⟩⟩
    case isFalse => exact ⟨rfl, .inl ⟨rfl, rfl⟩⟩
  case isFalse => exact ⟨rfl, .inl ⟨rfl, rfl⟩⟩

theorem Follows.open (h : Follows stream irs i p k) :
    (p.1.conns i).state = .established ∨ (p.1.conns i).state = .closeWait :=
  h.upTo.imp And.left And.left

/-- A segment in order extends the prefix, and the acknowledgement with it. -/
theorem Follows.received (h : Follows stream irs i p k)
    (hseg : seg.Continues stream irs (arrived i p)) (hread : p.1.readBy i op = [])
    (hconn : (p.1.step op).conns i = ((p.1.conns i).receive seg).1) :
    ∃ k', k ≤ k' ∧ Follows stream irs i (reading i p op) k' := by
  have ha : ((p.1.step op).conns i).active = true := by
    rw [hconn, (kin_receive _ seg).active, h.active]
  have hgot : arrived i (reading i p op) = p.2 ++ ((p.1.step op).conns i).recvBuf := by
    rw [arrived, reading, hread, append_nil]
  by_cases hdata : seg.payload ≠ [] ∧ seg.has flagAck = true
  · rw [Segment.Continues, if_pos hdata] at hseg
    have hrcvd : (p.1.conns i).state ≠ .synRcvd := by rcases h.open with hs | hs <;> simp [hs]
    obtain ⟨hstate, hack, hbuf⟩ := receive_data hrcvd hdata
    rw [← hconn] at hstate hack hbuf
    have hgot' : arrived i (reading i p op) = arrived i p ++ seg.payload := by
      rw [hgot, hbuf, arrived, append_assoc]
    -- after the FIN the stream has no bytes left
    have hest : (p.1.conns i).state = .established ∧ k = (arrived i p).length := by
      refine h.upTo.resolve_right fun ⟨_, hall, _⟩ => hdata.1 ?_
      have hlen := hseg.2.length_le
      rw [hall, length_append] at hlen
      exact length_eq_zero_iff.mp (by omega)
    refine ⟨k + seg.payload.length, Nat.le_add_right .., ha, hgot' ▸ hseg.2, ?_, .inl ⟨?_, ?_⟩⟩
    · show ((p.1.step op).conns i).ack = _
      rw [hack, hseg.1, hest.2, BitVec.ofNat_add, BitVec.add_assoc]
    · exact hstate.trans hest.1
    · rw [hgot', length_append, hest.2]
  · rw [Segment.Continues, if_neg hdata] at hseg
    obtain ⟨hbuf, hrest⟩ := receive_empty h.open hdata
    rw [← hconn] at hbuf hrest
    have hgot' : arrived i (reading i p op) = arrived i p := by rw [hgot, hbuf, arrived]
    rcases hrest with ⟨hstate, hack⟩ | ⟨hest, hfin, hstate, hack⟩
    · exact ⟨k, le_rfl, h.congr ha hgot' hack hstate⟩
    obtain ⟨hseq, hall⟩ := hseg hfin
    have hk : k = (arrived i p).length := by
      refine (h.upTo.resolve_right fun hx => ?_).2
      exact nomatch hest.symm.trans hx.1
    refine ⟨stream.length + 1, ?_, ha, hgot' ▸ h.isPrefix, ?_, .inr ⟨hstate, hgot'.trans hall, rfl⟩⟩
    · rw [hk, hall]
      exact Nat.le_succ _
    · show ((p.1.step op).conns i).ack = _
      rw [hack, hseq, hall, BitVec.ofNat_add, BitVec.add_assoc]

theorem Follows.step (h : Follows stream irs i p k) (hr : InOrder stream irs i p op) :
    ∃ k', k ≤ k' ∧ Follows stream irs i (reading i p op) k' := by
  by_cases hop : ∃ n, op = .recv i n
  · obtain ⟨n, rfl⟩ := hop
    have hconn : ((p.1.step (.recv i n)).conns i) =
        {p.1.conns i with recvBuf := (p.1.conns i).recvBuf.drop n} := by
      rw [Stack.step, tcpRecv, if_neg (by simp [h.active])]
      exact setConn_self
    refine ⟨k, le_rfl, h.congr hr.1 (arrived_recv h.active n) ?_ ?_⟩
    · exact (congrArg Conn.ack hconn :)
    · exact (congrArg Conn.state hconn :)
  have hread : p.1.readBy i op = [] := readBy_nil (fun n hn => hop ⟨n, hn⟩) p.1
  have hsame (hbuf : ((p.1.step op).conns i).recvBuf = (p.1.conns i).recvBuf)
      (hack : ((p.1.step op).conns i).ack = (p.1.conns i).ack)
      (hstate : ((p.1.step op).conns i).state = (p.1.conns i).state) :
      ∃ k', k ≤ k' ∧ Follows stream irs i (reading i p op) k' := by
    refine ⟨k, le_rfl, h.congr hr.1 ?_ hack hstate⟩
    rw [arrived, reading, hread, append_nil, hbuf, arrived]
  have hsees := sees_step h.active op
  generalize hc : (p.1.step op).conns i = c at hsees hsame
  cases hsees with
  | same => exact hsame rfl rfl rfl
  | accepted => exact hsame rfl rfl rfl
  | sent => exact hsame rfl rfl rfl
  | read n => exact absurd ⟨n, rfl⟩ hop
  | closed _ hgone =>
    rw [← hc] at hgone
    cases hgone.symm.trans hr.1
  | received _ seg hseg => exact h.received (hr.2 seg hseg) hread hc
  | ticked =>
    -- a connection that is still active was not given up
    have ha := hr.1
    rw [hc] at ha
    obtain ⟨rt, hticked⟩ := ticked_active ha
    rw [hticked] at hsame
    exact hsame rfl rfl rfl

theorem Follows.run {ops : List Op} (h : Follows stream irs i p k)
    (hr : Admissible (reading i) (InOrder stream irs i) p ops) :
    ∃ k', k ≤ k' ∧ Follows stream irs i (Lib.run (reading i) p ops) k' := by
  refine run_invariant (P := fun p => ∃ k', k ≤ k' ∧ Follows stream irs i p k') ?_ p ops
    ⟨k, le_rfl, h⟩ hr
  rintro p op ⟨k₁, hk₁, hp⟩ hop
  obtain ⟨k₂, hk₂, hp'⟩ := hp.step hop
  exact ⟨k₂, hk₁.trans hk₂, hp'⟩

/-- An established connection to which segments come in order: at any time what was read from it
is a prefix of the peer's stream, what it acknowledges is what it has taken in, and the
acknowledgement does not go back. -/
theorem recv_prefix {s : Stack} {ops₁ ops₂ : List Op} (ha : (s.conns i).active = true)
    (hest : (s.conns i).state = .established) (hbuf : (s.conns i).recvBuf = [])
    (hr : Admissible (reading i) (InOrder stream (s.conns i).ack i) (s, []) (ops₁ ++ ops₂)) :
    let p₁ := Lib.run (reading i) (s, []) ops₁
    let p₂ := Lib.run (reading i) (s, []) (ops₁ ++ ops₂)
    p₂.2 <+: stream ∧ ∃ k₁ k₂, k₁ ≤ k₂ ∧ Follows stream (s.conns i).ack i p₁ k₁ ∧
      Follows stream (s.conns i).ack i p₂ k₂ := by
  intro p₁ p₂
  have harrived : arrived i (s, []) = [] := by rw [arrived, hbuf, append_nil]
  have hstart : Follows stream (s.conns i).ack i (s, []) 0 := by
    refine ⟨ha, ?_, (BitVec.add_zero _).symm, .inl ⟨hest, ?_⟩⟩
    · rw [harrived]
      exact nil_prefix
    · rw [harrived]
      rfl
  obtain ⟨hr₁, hr₂⟩ := (admissible_append (reading i) _ (s, []) ops₁ ops₂).mp hr
  obtain ⟨k₁, -, h₁⟩ := hstart.run hr₁
  obtain ⟨k₂, hk, h₂⟩ := h₁.run hr₂
  rw [← run_append] at h₂
  exact ⟨(prefix_append ..).trans h₂.isPrefix, k₁, k₂, hk, h₁, h₂⟩

end

/-- The echo server says hello, and the client reads it in two parts. -/
theorem recv_prefix_hello :
    let s := run Stack.step loopbackOnly dialEcho
    let ops₁ := [.send 2 [104#8, 101#8, 121#8], .deliver, .recv 1 2]
    let ops₂ := [.deliver, .send 2 [33#8], .deliver, .recv 1 8]
    Admissible (reading 1) (InOrder [104#8, 101#8, 121#8, 33#8] (s.conns 1).ack 1) (s, [])
        (ops₁ ++ ops₂) ∧
      (run (reading 1) (s, []) (ops₁ ++ ops₂)).2 <+: [104#8, 101#8, 121#8, 33#8] := by
  intro s ops₁ ops₂
  have hr : Admissible (reading 1) (InOrder [104#8, 101#8, 121#8, 33#8] (s.conns 1).ack 1) (s, [])
      (ops₁ ++ ops₂) := by
    decide +kernel
  have hread := recv_prefix (by decide +kernel) (by decide +kernel) (by decide +kernel) hr
  exact ⟨hr, hread.1⟩

/-- The server's segment with the `n`th byte of what it says to the client of `dialEcho`. -/
def echoPiece (n : BitVec 32) (data : List Byte) : Op :=
  let c := (run Stack.step loopbackOnly dialEcho).conns 1
  .packet ⟨Stack.loopbackIp, Stack.loopbackIp, encode Stack.loopbackIp Stack.loopbackIp 8192#16
    ⟨7#16, 40000#16, c.ack + n, c.seq, flagAck ||| flagPsh, data⟩⟩

/-- A segment that comes twice is read twice, and one that comes late moves the acknowledgement
back. -/
theorem recv_repeats :
    let s := run Stack.step loopbackOnly dialEcho
    let irs := (s.conns 1).ack
    (s.conns 1).state = .established ∧
      (run (reading 1) (s, []) [echoPiece 0#32 [104#8], echoPiece 0#32 [104#8], .recv 1 8]).2 =
        [104#8, 104#8] ∧
      ((run Stack.step s [echoPiece 1#32 [105#8]]).conns 1).ack = irs + 2#32 ∧
      ((run Stack.step s [echoPiece 1#32 [105#8], echoPiece 0#32 [104#8]]).conns 1).ack =
        irs + 1#32 := by
  decide +kernel

end Nyx.Net
