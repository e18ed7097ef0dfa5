import Nyx.Net.Demux

/-! The IP layer (`ip.c`): the headers of `ip_send`, and the echo messages of `icmp.c`.

The loops that compute checksums keep the ones'-complement sum in 16 bits, so that every segment
and header verifies (`checksums_verify`). Echo messages do so only if their checksum is the same in
both byte orders, since nothing swaps it. -/
namespace Nyx.Net
open List Stack

/-! ### Checksums -/

def onesSum (ws : List Nat) : Nat := if ws.sum = 0 then 0 else (ws.sum - 1) % 65535 + 1

theorem foldl_addCarry {ws : List Nat} (h : ∀ w ∈ ws, w < 65536) :
    ws.foldl addCarry 0 = onesSum ws := by
  induction ws using reverseRecOn with
  | nil => rfl
  | append_singleton ws w ih =>
    have hw := h w (by simp)
    rw [foldl_concat, ih fun v hv => h v (mem_append_left _ hv), addCarry, onesSum, onesSum,
      sum_append, sum_singleton]
    generalize ws.sum = n
    split_ifs <;> omega

theorem words_lt (bytes : List Byte) : ∀ w ∈ words bytes, w < 65536 := by
  fun_induction words bytes with
  | case1 => simp
  | case2 a =>
    have ha := a.isLt
    simp only [mem_singleton, forall_eq]
    omega
  | case3 a b rest ih =>
    have ha := a.isLt
    have hb := b.isLt
    simp only [mem_cons, forall_eq_or_imp]
    exact ⟨by omega, ih⟩

/-- The complement of the sum, in the place of the checksum, makes the words verify. -/
theorem onesSum_complement {f : BitVec 16 → List Nat} (h : ∀ w ∈ f 0#16, w < 65536)
    (hpos : (f 0#16).sum ≠ 0) (hsum : ∀ ck, (f ck).sum = (f 0#16).sum + ck.toNat) :
    onesSum (f (~~~BitVec.ofNat 16 ((f 0#16).foldl addCarry 0))) = 65535 := by
  rw [foldl_addCarry h, onesSum, hsum, onesSum, if_neg hpos, BitVec.toNat_not, BitVec.toNat_ofNat,
    if_neg (by omega)]
  omega

theorem word_be16 (x : BitVec 16) :
    (x.extractLsb' 8 8).toNat * 256 + (x.extractLsb' 0 8).toNat = x.toNat := by
  have hx := x.isLt
  simp only [BitVec.extractLsb'_toNat, Nat.shiftRight_eq_div_pow]
  omega

def pseudoHeader (srcIp dstIp : BitVec 32) (length : Nat) : List Byte :=
  octets srcIp ++ octets dstIp ++ [0#8, 6#8] ++ be16 (BitVec.ofNat 16 length)

/-- The check a receiver makes. -/
def Verifies (srcIp dstIp : BitVec 32) (packet : List Byte) : Prop :=
  onesSum (words (pseudoHeader srcIp dstIp packet.length ++ packet)) = 65535

variable (srcIp dstIp : BitVec 32)

theorem verifies_encode (window : BitVec 16) (seg : Segment) :
    Verifies srcIp dstIp (encode srcIp dstIp window seg) := by
  refine onesSum_complement (f := fun ck => words (pseudoHeader srcIp dstIp
    (layOut seg window 0#16).length ++ layOut seg window ck)) (words_lt _) ?_ fun ck => ?_
  · simp [pseudoHeader, octets, words]
  · rw [← word_be16 ck]
    simp [pseudoHeader, octets, layOut, be16, be32, words]
    omega

/-- The header of `ip_send`, for a payload of `len` bytes. -/
def layOutIp (srcIp dstIp : BitVec 32) (protocol : Byte) (len : Nat) (checksum : BitVec 16) :
    List Byte :=
  [0x45#8, 0#8] ++ be16 (BitVec.ofNat 16 (20 + len)) ++ [0#8, 0#8, 0#8, 0#8, 64#8, protocol] ++
    be16 checksum ++ octets srcIp ++ octets dstIp

def ipChecksum (header : List Byte) : BitVec 16 :=
  ~~~BitVec.ofNat 16 ((words header).foldl addCarry 0)

def ipHeader (srcIp dstIp : BitVec 32) (protocol : Byte) (len : Nat) : List Byte :=
  layOutIp srcIp dstIp protocol len (ipChecksum (layOutIp srcIp dstIp protocol len 0#16))

theorem onesSum_ipHeader (protocol : Byte) (len : Nat) :
    onesSum (words (ipHeader srcIp dstIp protocol len)) = 65535 := by
  refine onesSum_complement (f := fun ck => words (layOutIp srcIp dstIp protocol len ck))
    (words_lt _) ?_ fun ck => ?_
  · simp [layOutIp, words]
  · rw [← word_be16 ck]
    simp [octets, layOutIp, be16, words]
    omega

/-- Every segment of `send_segment`, every RST for a segment that no connection takes, and every
IP header verifies. -/
theorem checksums_verify : (∀ (c : Conn) (flags : BitVec 6) (data : List Byte),
        Verifies c.srcIp c.dstIp (c.packet flags data)) ∧
      (∀ (s : Stack) (seg : Segment) (srcIp dstIp : BitVec 32), seg.has flagRst = false →
        (if seg.has flagSyn && !seg.has flagAck then s.findListener seg.dstPort else none) = none ∨
          s.findSlot = none →
        ∃ packet, s.unmatched seg srcIp dstIp = (s.ipSend srcIp packet).1 ∧
          Verifies dstIp srcIp packet) ∧
      ∀ (srcIp dstIp : BitVec 32) (protocol : Byte) (len : Nat),
        onesSum (words (ipHeader srcIp dstIp protocol len)) = 65535 := by
  refine ⟨fun c flags data => verifies_encode .., fun s seg srcIp dstIp hrst hnone => ?_,
    onesSum_ipHeader⟩
  refine ⟨_, ?_, verifies_encode dstIp srcIp 0#16
    ⟨seg.dstPort, seg.srcPort, 0#32, seg.seq + 1#32, flagRst ||| flagAck, []⟩⟩
  rw [unmatched, hrst]
  rcases hnone with hnone | hnone
  · rw [hnone]
    rfl
  rw [hnone]
  cases (if seg.has flagSyn && !seg.has flagAck then s.findListener seg.dstPort else none) <;> rfl

/-- A SYN for a port where nobody listens. -/
theorem checksums_verify_refused : ∃ packet, loopbackOnly.unmatched
      ⟨40000#16, 7#16, 1000#32, 0#32, flagSyn, []⟩ loopbackIp loopbackIp =
        (loopbackOnly.ipSend loopbackIp packet).1 ∧ Verifies loopbackIp loopbackIp packet :=
  checksums_verify.2.1 _ _ _ _ (by decide) (.inl (by decide))

/-! ### Echo messages -/

/-- A `uint16_t` as a plain store leaves it in memory. -/
def le16 (x : BitVec 16) : List Byte := [x.extractLsb' 0 8, x.extractLsb' 8 8]

/-- A message with its checksum, which is over the message with zero in its place. -/
def icmpMessage (type : Byte) (rest : List Byte) : List Byte :=
  [type, 0#8] ++ le16 (ipChecksum ([type, 0#8] ++ le16 0#16 ++ rest)) ++ rest

def icmpSendEcho (id seq : BitVec 16) : List Byte :=
  icmpMessage 8#8 (be16 id ++ be16 seq ++ (range 56).map (BitVec.ofNat 8))

/-- `icmp_handle_packet`: the reply to an echo request. -/
def icmpHandlePacket (packet : List Byte) : Option (List Byte) :=
  if packet.length < 8 ∨ packet.head? ≠ some 8#8 then none
  else some (icmpMessage 0#8 (packet.drop 4))

/-- A checksum in the wrong byte order puts the sum off by 255 times the difference of its bytes.
They are equal if 257, which divides 65535, divides the sum. -/
theorem onesSum_swapped {v w : List Nat} {hi lo : Nat} (hhi : hi < 256) (hlo : lo < 256)
    (hck : hi * 256 + lo = 65535 - onesSum v) (hsum : w.sum = v.sum + (lo * 256 + hi)) :
    onesSum w = 65535 ↔ v.sum % 257 = 0 := by
  rw [onesSum] at hck ⊢
  generalize w.sum = n, v.sum = m at hck hsum ⊢
  have hoff : n + 255 * hi = 65535 * ((m - 1) / 65535 + 1) + 255 * lo := by
    split_ifs at hck <;> omega
  have heq : lo = hi ↔ m % 257 = 0 := by
    split_ifs at hck <;> omega
  rw [if_neg (by omega), ← heq]
  rcases lt_trichotomy lo hi with hne | rfl | hne <;> omega

theorem onesSum_icmpMessage (type : Byte) (rest : List Byte) :
    onesSum (words (icmpMessage type rest)) = 65535 ↔
      (type.toNat * 256 + (words rest).sum) % 257 = 0 := by
  have hzero : (words ([type, 0#8] ++ le16 0#16 ++ rest)).sum =
      type.toNat * 256 + (words rest).sum := by
    simp [le16, words]
  rw [icmpMessage, ← hzero]
  generalize hck : ipChecksum _ = ck
  refine onesSum_swapped (ck.extractLsb' 8 8).isLt (ck.extractLsb' 0 8).isLt ?_ ?_
  · rw [word_be16, ← hck, ipChecksum, foldl_addCarry (words_lt _), BitVec.toNat_not,
      BitVec.toNat_ofNat, Nat.mod_eq_of_lt]
    rw [onesSum]
    split <;> omega
  · simp only [le16, cons_append, nil_append, words, sum_cons, BitVec.extractLsb'_zero,
      BitVec.toNat_ofNat]
    omega

/-- A request verifies for one identifier in 257, given its sequence number: the type and the
payload leave 20 modulo 257. A reply does if 257 divides the sum of what it repeats of the request. -/
theorem icmp_verifies (id seq : BitVec 16) (packet : List Byte) :
    (onesSum (words (icmpSendEcho id seq)) = 65535 ↔ (id.toNat + seq.toNat + 20) % 257 = 0) ∧
      ∀ reply ∈ icmpHandlePacket packet,
        onesSum (words reply) = 65535 ↔ (words (packet.drop 4)).sum % 257 = 0 := by
  have hpayload : (words ((range 56).map (BitVec.ofNat 8))).sum = 194320 := by decide +kernel
  refine ⟨(onesSum_icmpMessage ..).trans ?_, fun reply h => ?_⟩
  · simp only [be16, cons_append, nil_append, words, sum_cons, word_be16, hpayload]
    change (8 * 256 + _) % 257 = 0 ↔ _
    omega
  · rw [icmpHandlePacket, Option.mem_def] at h
    split at h
    · cases h
    rw [← Option.some.inj h, onesSum_icmpMessage]
    simp

theorem icmp_verifies_ping : onesSum (words (icmpSendEcho 236 1)) = 65535 ∧
      onesSum (words (icmpMessage 0#8 [0, 0, 0, 97, 97])) = 65535 :=
  ⟨(icmp_verifies 236 1 []).1.mpr (by decide),
    ((icmp_verifies 0 0 [8, 0, 0, 0, 0, 0, 0, 97, 97]).2 _ rfl).mpr (by decide)⟩

theorem icmp_swapped : onesSum (words (icmpSendEcho 0 1)) ≠ 65535 ∧
    ∃ reply ∈ icmpHandlePacket [8, 0, 0, 0, 0, 0, 0, 1], onesSum (words reply) ≠ 65535 :=
  ⟨by decide +kernel, _, rfl, by decide⟩

end Nyx.Net
