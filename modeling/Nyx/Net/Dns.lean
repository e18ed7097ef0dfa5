import Nyx.Net.Wire

/-! The resolver (`dns.c`).

Every byte is read with a check, and a loop has as many turns as the response has bytes, so that a
run which gives a value reads inside the response and ends (`parser_safe`). -/
namespace Nyx.Net.Dns
open List

/-! ### The parser -/

/-- `off += n`, in 32 bits. -/
def advance (off n : Nat) : Nat := (off + n) % 2 ^ 32

variable (data : List Byte)

/-- A loop over the labels of a name: a byte that ends the name has `stop` bytes to skip. -/
def skip (stop : Byte → Option (Fin 6)) : Nat → Nat → Option Nat
  | 0, _ => none
  | turns + 1, off =>
    if data.length ≤ off then some off
    else data[off]?.bind fun b =>
      match stop b with
      | some n => some (advance off n)
      | none => skip stop turns (advance off (b.toNat + 1))

/-- The name of the question; only after a zero byte are QTYPE and QCLASS skipped. -/
def skipQuestion : Nat → Option Nat :=
  skip data (fun b => if b = 0 then some 5 else if b &&& 0xC0 ≠ 0 then some 2 else none)
    (data.length + 1)

/-- The name of an answer: a pointer only if it starts with one. -/
def skipName (off : Nat) : Option Nat :=
  data[off]?.bind fun b =>
    if b &&& 0xC0 ≠ 0 then some (advance off 2)
    else skip data (fun b => if b = 0 then some 1 else none) (data.length + 1) off

def read16 (off : Nat) : Option (BitVec 16) :=
  data[off]?.bind fun hi => data[advance off 1]?.map fun lo => hi ++ lo

def readAddress (off : Nat) : Option (BitVec 32) :=
  (read16 data off).bind fun ab => (read16 data (advance off 2)).map fun cd =>
    cd.extractLsb' 0 8 ++ cd.extractLsb' 8 8 ++ ab.extractLsb' 0 8 ++ ab.extractLsb' 8 8

def answers : Nat → Nat → Option (Option (BitVec 32))
  | 0, _ => some none
  | count + 1, off =>
    if data.length ≤ off then some none
    else (skipName data off).bind fun off =>
      if data.length < advance off 10 then some none
      else (read16 data off).bind fun type => (read16 data (advance off 8)).bind fun rdlength =>
        if type = 1#16 ∧ rdlength = 4#16 ∧ advance off 14 ≤ data.length then
          (readAddress data (advance off 10)).map some
        else answers count (advance off (10 + rdlength.toNat))

def dnsResponseHandler : Option (Option (BitVec 32)) :=
  if data.length < 12 then some none
  else (read16 data 2).bind fun flags => (read16 data 6).bind fun ancount =>
    if flags &&& 0x8000#16 = 0 ∨ ancount = 0 then some none
    else (skipQuestion data 12).bind (answers data ancount.toNat)

theorem advance_eq {off n : Nat} (h : off + n < 2 ^ 32) : advance off n = off + n :=
  Nat.mod_eq_of_lt h

section
variable {data} (hdata : data.length ≤ 65535)
include hdata

theorem read16_total (off : Nat) (h : off + 2 ≤ data.length) : ∃ w, read16 data off = some w := by
  rw [read16, advance_eq (by omega), getElem?_eq_getElem (show off < data.length by omega),
    getElem?_eq_getElem (show off + 1 < data.length by omega)]
  exact ⟨_, rfl⟩

/-- A loop over labels ends, not far behind the response. -/
theorem skip_total {off : Nat} {stop : Byte → Option (Fin 6)} {turns : Nat}
    (hturns : data.length - off < turns) (hoff : off ≤ 2 ^ 20) :
    ∃ off' ≤ 2 ^ 20, skip data stop turns off = some off' := by
  induction turns generalizing off with
  | zero => omega
  | succ turns ih =>
    rw [skip]
    split
    · exact ⟨off, hoff, rfl⟩
    case isFalse hlt =>
      have hb := (data.get ⟨off, by omega⟩).isLt
      rw [getElem?_eq_getElem (by omega), Option.bind_some]
      split
      case h_1 n _ =>
        have hn := n.isLt
        exact ⟨_, by rw [advance_eq] <;> omega, rfl⟩
      · rw [advance_eq (by omega)]
        exact ih (by omega) (by omega)

theorem skipName_total (off : Nat) (h : off < data.length) :
    ∃ off' ≤ 2 ^ 20, skipName data off = some off' := by
  rw [skipName, getElem?_eq_getElem h, Option.bind_some]
  split
  · exact ⟨_, by rw [advance_eq] <;> omega, rfl⟩
  · exact skip_total hdata (by omega) (by omega)

theorem answers_total (count : Nat) : ∀ off ≤ 2 ^ 20, ∃ r, answers data count off = some r := by
  induction count with
  | zero => exact fun _ _ => ⟨none, rfl⟩
  | succ count ih =>
    intro off hoff
    rw [answers]
    split
    · exact ⟨none, rfl⟩
    case isFalse hlt =>
      obtain ⟨off', hoff', hname⟩ := skipName_total hdata off (by omega)
      rw [hname, Option.bind_some, advance_eq (show off' + 10 < 2 ^ 32 by omega)]
      split
      · exact ⟨none, rfl⟩
      case isFalse hfits =>
        obtain ⟨type, htype⟩ := read16_total hdata off' (by omega)
        obtain ⟨len, hlen⟩ := read16_total hdata (off' + 8) (by omega)
        have hsmall := len.isLt
        rw [advance_eq (by omega), htype, hlen, Option.bind_some, Option.bind_some,
          advance_eq (show off' + 14 < 2 ^ 32 by omega)]
        split
        case isTrue hrecord =>
          obtain ⟨ab, hab⟩ := read16_total hdata (off' + 10) (by omega)
          obtain ⟨cd, hcd⟩ := read16_total hdata (off' + 10 + 2) (by omega)
          rw [readAddress, advance_eq (by omega), hab, hcd]
          exact ⟨_, rfl⟩
        · exact ih _ (by rw [advance_eq] <;> omega)

end

/-- The parser ends, and reads only inside the response. -/
theorem parser_safe (hdata : data.length ≤ 65535) : ∃ r, dnsResponseHandler data = some r := by
  rw [dnsResponseHandler]
  split
  · exact ⟨none, rfl⟩
  case isFalse hlen =>
    obtain ⟨flags, hflags⟩ := read16_total hdata 2 (by omega)
    obtain ⟨count, hcount⟩ := read16_total hdata 6 (by omega)
    rw [hflags, hcount, Option.bind_some, Option.bind_some]
    split
    · exact ⟨none, rfl⟩
    obtain ⟨off, hoff, hskip⟩ : ∃ off ≤ 2 ^ 20, skipQuestion data 12 = some off :=
      skip_total hdata (by omega) (by omega)
    rw [hskip]
    exact answers_total hdata _ off hoff

/-- A response for the name `a`: the question, and an answer whose name is a pointer to it. -/
def response : List Byte :=
  [0x12, 0x34, 0x81, 0x80, 0, 1, 0, 1, 0, 0, 0, 0] ++ [1, 97, 0, 0, 1, 0, 1] ++
    [0xC0, 12, 0, 1, 0, 1, 0, 0, 0, 60, 0, 4, 10, 0, 2, 3]

theorem parser_safe_response : (∃ r, dnsResponseHandler response = some r) ∧
    dnsResponseHandler response = some (some 0x0302000A#32) :=
  ⟨parser_safe response (by decide), by decide⟩

/-! ### The query -/

/-- `encode_dns_name`: the bytes it writes, and whether no label is too long. -/
def encodeDnsName : Nat → List Byte → List Byte × Bool
  | 0, _ => ([0], true)
  | turns + 1, name =>
    let label := name.takeWhile (· != 46#8)
    if name = [] then ([0], true)
    else if 63 < label.length then ([], false)
    else
      let (rest, ok) := encodeDnsName turns (name.drop (label.length + 1))
      (BitVec.ofNat 8 label.length :: (label ++ rest), ok)

/-- What `dns_resolve` writes to its packet, and whether it sends it. -/
def dnsResolve (hostname : List Byte) : List Byte × Bool :=
  let (name, ok) := encodeDnsName hostname.length hostname
  ([0x12, 0x34, 1, 0, 0, 1, 0, 0, 0, 0, 0, 0] ++ name ++ if ok then [0, 1, 0, 1] else [], ok)

def decodeName : Nat → List Byte → List (List Byte)
  | turns + 1, b :: rest =>
    if b = 0 then [] else rest.take b.toNat :: decodeName turns (rest.drop b.toNat)
  | _, _ => []

/-- The labels of a hostname; each ends at a dot, or with the hostname. -/
def labels : Nat → List Byte → List (List Byte)
  | 0, _ => []
  | turns + 1, name =>
    let label := name.takeWhile (· != 46#8)
    if name = [] then [] else label :: labels turns (name.drop (label.length + 1))

/-- The labels before the first one of more than 63 characters. -/
def encoded (ls : List (List Byte)) : List (List Byte) := ls.takeWhile (·.length ≤ 63)

def size (ls : List (List Byte)) : Nat := (ls.map fun l => l.length + 1).sum

/-- A name as it is written on the wire, up to its end. -/
def wire (ls : List (List Byte)) : List Byte := ls.flatMap fun l => BitVec.ofNat 8 l.length :: l

variable {ls : List (List Byte)}

theorem encoded_cons {l : List Byte} (h : l.length ≤ 63) : encoded (l :: ls) = l :: encoded ls :=
  takeWhile_cons_of_pos (decide_eq_true h)

theorem length_wire (ls : List (List Byte)) : (wire ls).length = size ls := by
  simp [wire, size, length_flatMap]

theorem length_labels_le (turns : Nat) (name : List Byte) : (labels turns name).length ≤ turns := by
  induction turns generalizing name with
  | zero => exact le_rfl
  | succ turns ih =>
    rw [labels]
    split
    · exact Nat.zero_le _
    · exact Nat.succ_le_succ (ih _)

theorem encodeDnsName_eq (turns : Nat) (name : List Byte) :
    encodeDnsName turns name =
      (wire (encoded (labels turns name)) ++ if encoded (labels turns name) = labels turns name
        then [0] else [], decide (encoded (labels turns name) = labels turns name)) := by
  induction turns generalizing name with
  | zero => rfl
  | succ turns ih =>
    rw [encodeDnsName, labels]
    dsimp only
    split
    · rfl
    split
    case isTrue hlong => simp [encoded, wire, Nat.not_le.mpr hlong]
    case isFalse hshort =>
      rw [ih, encoded_cons (Nat.not_lt.mp hshort)]
      simp [wire]

/-- A decoder sees the labels before the first empty one. -/
theorem decodeName_wire (hls : ∀ l ∈ ls, l.length ≤ 63) (more : List Byte) {turns : Nat}
    (hturns : ls.length < turns) :
    decodeName turns (wire ls ++ 0 :: more) = ls.takeWhile (· ≠ []) := by
  induction ls generalizing turns with
  | nil =>
    obtain ⟨turns, rfl⟩ : ∃ n, turns = n + 1 := ⟨turns - 1, by omega⟩
    rfl
  | cons l ls ih =>
    obtain ⟨turns, rfl⟩ : ∃ n, turns = n + 1 := ⟨turns - 1, by omega⟩
    have hlen : (BitVec.ofNat 8 l.length).toNat = l.length := by
      have := hls l (.head _)
      rw [BitVec.toNat_ofNat]
      omega
    have hrest := ih (fun l' hl' => hls l' (.tail _ hl')) (Nat.lt_of_succ_lt_succ hturns)
    rw [wire, flatMap_cons, cons_append, cons_append, decodeName, hlen, append_assoc]
    cases l with
    | nil => rfl
    | cons b l =>
      have hne : BitVec.ofNat 8 (b :: l).length ≠ 0 := fun he => by
        rw [he] at hlen
        cases hlen
      rw [if_neg hne, take_left, drop_left]
      exact congrArg _ hrest

end Nyx.Net.Dns
