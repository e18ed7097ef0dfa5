import Mathlib

/-! TCP segments on the wire (`send_segment` and the head of `tcp_handle_packet` in `tcp.c`).

Header fields are in network byte order. What one side writes the other side reads
(`parse_encode`); a packet that is too short for its header, or whose data offset points past its
end, is not a segment. Nothing reads the window, the checksum or the urgent pointer. -/
namespace Nyx.Net

abbrev Byte := BitVec 8

def flagFin : BitVec 6 := 0x01#6
def flagSyn : BitVec 6 := 0x02#6
def flagRst : BitVec 6 := 0x04#6
def flagPsh : BitVec 6 := 0x08#6
def flagAck : BitVec 6 := 0x10#6

structure Segment where
  srcPort : BitVec 16
  dstPort : BitVec 16
  seq : BitVec 32
  ack : BitVec 32
  flags : BitVec 6
  payload : List Byte
deriving DecidableEq, Repr

variable (seg : Segment) (window checksum : BitVec 16) (f : BitVec 6)

def Segment.has (flag : BitVec 6) : Bool := seg.flags &&& flag != 0#6

/-! ### Network byte order -/

def be16 (x : BitVec 16) : List Byte := [x.extractLsb' 8 8, x.extractLsb' 0 8]

def be32 (x : BitVec 32) : List Byte :=
  [x.extractLsb' 24 8, x.extractLsb' 16 8, x.extractLsb' 8 8, x.extractLsb' 0 8]

theorem append_extract16 (x : BitVec 16) : x.extractLsb' 8 8 ++ x.extractLsb' 0 8 = x :=
  (BitVec.extractLsb'_append_extractLsb'_eq_extractLsb' (by rfl : 8 = 0 + 8)).trans
    BitVec.extractLsb'_eq_self

theorem append_extract32 (x : BitVec 32) :
    x.extractLsb' 24 8 ++ x.extractLsb' 16 8 ++ x.extractLsb' 8 8 ++ x.extractLsb' 0 8 = x := by
  ext i hi
  simp only [BitVec.getElem_append, BitVec.getElem_extractLsb']
  grind

/-! ### The checksum -/

/-- The 16-bit words of a packet; an odd last byte is padded with zero. -/
def words : List Byte → List Nat
  | [] => []
  | [a] => [a.toNat * 256]
  | a :: b :: rest => (a.toNat * 256 + b.toNat) :: words rest

def addCarry (sum w : Nat) : Nat :=
  if 65536 ≤ sum + w then (sum + w) % 65536 + (sum + w) / 65536 else sum + w

/-- Addresses are stored with their first octet in the low byte. -/
def octets (ip : BitVec 32) : List Byte :=
  [ip.extractLsb' 0 8, ip.extractLsb' 8 8, ip.extractLsb' 16 8, ip.extractLsb' 24 8]

def tcpChecksum (srcIp dstIp : BitVec 32) (packet : List Byte) : BitVec 16 :=
  let pseudo := octets srcIp ++ octets dstIp ++ [0#8, 6#8] ++ be16 (BitVec.ofNat 16 packet.length)
  ~~~BitVec.ofNat 16 ((words pseudo ++ words packet).foldl addCarry 0)

/-! ### Encoding and parsing -/

/-- A packet, header first. The header has five words. -/
def layOut (window checksum : BitVec 16) : List Byte :=
  be16 seg.srcPort ++ be16 seg.dstPort ++ be32 seg.seq ++ be32 seg.ack ++
    be16 (0x5#4 ++ 0#6 ++ seg.flags) ++ be16 window ++ be16 checksum ++ be16 0#16 ++ seg.payload

def encode (srcIp dstIp : BitVec 32) (window : BitVec 16) (seg : Segment) : List Byte :=
  layOut seg window (tcpChecksum srcIp dstIp (layOut seg window 0#16))

structure Header where
  srcPort : BitVec 16
  dstPort : BitVec 16
  seq : BitVec 32
  ack : BitVec 32
  offsetFlags : BitVec 16

def readHeader : List Byte → Option Header
  | s₁ :: s₀ :: d₁ :: d₀ :: q₃ :: q₂ :: q₁ :: q₀ :: a₃ :: a₂ :: a₁ :: a₀ :: o₁ :: o₀ ::
      _ :: _ :: _ :: _ :: _ :: _ :: _ =>
    some ⟨s₁ ++ s₀, d₁ ++ d₀, q₃ ++ q₂ ++ q₁ ++ q₀, a₃ ++ a₂ ++ a₁ ++ a₀, o₁ ++ o₀⟩
  | _ => none

def Header.len (h : Header) : Nat := (h.offsetFlags.extractLsb' 12 4).toNat * 4

def parse (packet : List Byte) : Option Segment :=
  match readHeader packet with
  | none => none
  | some h =>
    if packet.length < h.len then none
    else some ⟨h.srcPort, h.dstPort, h.seq, h.ack, h.offsetFlags.extractLsb' 0 6, packet.drop h.len⟩

theorem flags_offsetFlags : (0x5#4 ++ 0#6 ++ f).extractLsb' 0 6 = f := by
  revert f
  decide

theorem length_offsetFlags : (0x5#4 ++ 0#6 ++ f).extractLsb' 12 4 = 5#4 := by
  revert f
  decide

theorem readHeader_layOut : readHeader (layOut seg window checksum) =
      some ⟨seg.srcPort, seg.dstPort, seg.seq, seg.ack, 0x5#4 ++ 0#6 ++ seg.flags⟩ := by
  simp only [layOut, be16, be32, List.cons_append, List.nil_append, readHeader, append_extract16,
    append_extract32]

theorem parse_layOut : parse (layOut seg window checksum) = some seg := by
  have hlen : Header.len ⟨seg.srcPort, seg.dstPort, seg.seq, seg.ack, 0x5#4 ++ 0#6 ++ seg.flags⟩ =
      20 := by
    rw [Header.len, length_offsetFlags]
    rfl
  have hroom : ¬ (layOut seg window checksum).length < 20 := by
    simp [layOut, be16, be32]
  rw [parse, readHeader_layOut]
  dsimp only
  rw [hlen, if_neg hroom, flags_offsetFlags]
  rfl

/-- A segment is read as it was written. -/
theorem parse_encode (srcIp dstIp : BitVec 32) (window : BitVec 16) (seg : Segment) :
    parse (encode srcIp dstIp window seg) = some seg := parse_layOut seg window _

end Nyx.Net
