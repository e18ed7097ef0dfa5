import Mathlib

/-! The socket table (`net.c`).

A socket is a slot of a fixed table and has no reference count: `nsock_create` and
`nsock_accept` take a free slot, `nsock_close` frees it. What the protocol code behind it
answers (a connection, a port, memory for the receive ring) is an argument. -/
namespace Nyx.Descriptors
open Function

def maxSockets : Nat := 32

/-- `SOCK_STREAM` and `SOCK_DGRAM`. -/
def sockStream : BitVec 32 := 1#32
def sockDgram : BitVec 32 := 2#32

/-- `dq` says whether the slot has a receive ring. -/
structure Nsock where
  inUse : Bool
  type : BitVec 32
  tcpConn : Option Nat
  localPort : BitVec 16
  listening : Bool
  dq : Bool
deriving DecidableEq, Repr

def Nsock.zero : Nsock := ⟨false, 0, none, 0, false, false⟩

abbrev Nsocks := Fin maxSockets → Nsock

/-- What can be asked of a socket besides data, and what the protocol answers. -/
inductive SockOp where
  | connect (conn : Option Nat)
  | bind (port : BitVec 16)
  | listen (conn : Option Nat)
  | sendto (ephemeral : BitVec 16)
  | recvfrom
deriving DecidableEq, Repr

/-- What it does to the slot. -/
def SockOp.apply (n : Nsock) : SockOp → Nsock
  | connect conn =>
    if n.type ≠ sockStream then n
    else match conn with
      | none => n
      | some c => {n with tcpConn := some c}
  | bind port => {n with localPort := port}
  | listen conn =>
    if n.localPort = 0 then n
    else match conn with
      | none => n
      | some c => {n with tcpConn := some c, listening := true}
  | sendto ephemeral =>
    if n.type ≠ sockDgram then n
    else if n.localPort = 0 then {n with localPort := ephemeral}
    else n
  | recvfrom => n

theorem SockOp.apply_inUse (n : Nsock) (op : SockOp) : (op.apply n).inUse = n.inUse := by
  cases op with
  | connect conn =>
    simp only [apply]
    split
    · rfl
    · cases conn <;> rfl
  | bind port => rfl
  | listen conn =>
    simp only [apply]
    split
    · rfl
    · cases conn <;> rfl
  | sendto ephemeral =>
    simp only [apply]
    split
    · rfl
    · split <;> rfl
  | recvfrom => rfl

namespace Nsocks
variable (ns : Nsocks)

def free : Option (Fin maxSockets) := (List.finRange maxSockets).find? fun i => !(ns i).inUse

/-- `nsock_valid`. -/
def lookup (id : BitVec 32) : Option (Fin maxSockets) :=
  if h : id.toNat < maxSockets then if (ns ⟨id.toNat, h⟩).inUse then some ⟨id.toNat, h⟩ else none
  else none

/-- `nsock_create`. Without memory for its ring a datagram socket leaves the slot free. -/
def nsockCreate (type : BitVec 32) (ring : Bool) : Nsocks × Option (Fin maxSockets) :=
  if type ≠ sockStream ∧ type ≠ sockDgram then (ns, none)
  else
    match ns.free with
    | none => (ns, none)
    | some i =>
      if type = sockDgram ∧ ring = false then
        (Function.update ns i {Nsock.zero with type := type}, none)
      else
        (Function.update ns i {Nsock.zero with inUse := true, type := type, dq := type = sockDgram},
          some i)

/-- `nsock_accept`, given the connection `tcp_accept` hands out, if any. -/
def nsockAccept (id : BitVec 32) (child : Option Nat) : Nsocks × Option (Fin maxSockets) :=
  match ns.lookup id with
  | none => (ns, none)
  | some s =>
    if (ns s).listening = false ∨ (ns s).tcpConn = none then (ns, none)
    else
      match child, ns.free with
      | some c, some j =>
        (Function.update ns j
          { ns j with
            inUse := true
            type := sockStream
            tcpConn := some c
            localPort := (ns s).localPort
            listening := false },
          some j)
      | _, _ => (ns, none)

def nsockApply (id : BitVec 32) (op : SockOp) : Nsocks :=
  match ns.lookup id with
  | none => ns
  | some i => Function.update ns i (op.apply (ns i))

def nsockClose (id : BitVec 32) : Nsocks :=
  match ns.lookup id with
  | none => ns
  | some i => Function.update ns i {ns i with inUse := false, tcpConn := none, dq := false}

/-! ### Which slots are in use -/

def inUse (i : Fin maxSockets) : Bool := (ns i).inUse

theorem inUse_update (i : Fin maxSockets) (n : Nsock) :
    Nsocks.inUse (update ns i n) = update ns.inUse i n.inUse := by
  funext j
  simp only [inUse, update_apply]
  split <;> rfl

variable (id : BitVec 32)

theorem inUse_nsockApply (op : SockOp) : (ns.nsockApply id op).inUse = ns.inUse := by
  simp only [nsockApply]
  split
  · rfl
  case h_2 i _ =>
    rw [inUse_update, op.apply_inUse]
    exact update_eq_self i ns.inUse

theorem inUse_nsockClose :
    (ns.nsockClose id).inUse = fun i => ns.inUse i && !(id == BitVec.ofNat 32 i.val) := by
  funext j
  have hj : BitVec.ofNat 32 j.val = id ↔ j.val = id.toNat := by
    rw [← BitVec.toNat_inj, BitVec.toNat_ofNat, Nat.mod_eq_of_lt]
    exact j.isLt.trans (by decide)
  simp only [nsockClose, lookup]
  by_cases hlt : id.toNat < maxSockets
  · rw [dif_pos hlt]
    by_cases hin : (ns ⟨id.toNat, hlt⟩).inUse = true
    · rw [if_pos hin]
      dsimp only
      rw [inUse_update, update_apply]
      split
      case isTrue he =>
        have hid : id = BitVec.ofNat 32 j.val := (hj.mpr (congrArg Fin.val he)).symm
        simp [hid]
      case isFalse hne =>
        have hid : id ≠ BitVec.ofNat 32 j.val := fun he => hne (Fin.ext (hj.mp he.symm))
        simp [hid]
    · rw [if_neg hin]
      dsimp only
      by_cases hid : id = BitVec.ofNat 32 j.val
      · have he : j = ⟨id.toNat, hlt⟩ := Fin.ext (hj.mp hid.symm)
        rw [← he] at hin
        simp [inUse, Bool.eq_false_iff.mpr hin]
      · simp [hid]
  · rw [dif_neg hlt]
    dsimp only
    have hid : id ≠ BitVec.ofNat 32 j.val := fun he => hlt ((hj.mp he.symm) ▸ j.isLt)
    simp [hid]

theorem free_spec {i : Fin maxSockets} (h : ns.free = some i) : ns.inUse i = false := by
  have hi := List.find?_some h
  exact (Bool.not_eq_true' _).mp hi

/-- A new socket takes a free slot; a failed call takes none. -/
theorem nsockCreate_spec (type : BitVec 32) (ring : Bool) :
    (ns.nsockCreate type ring).2 = none ∧ (ns.nsockCreate type ring).1.inUse = ns.inUse ∨
      ∃ i, (ns.nsockCreate type ring).2 = some i ∧ ns.inUse i = false ∧
        (ns.nsockCreate type ring).1.inUse = update ns.inUse i true := by
  simp only [nsockCreate]
  split
  · exact .inl ⟨rfl, rfl⟩
  split
  · exact .inl ⟨rfl, rfl⟩
  case h_2 i hi =>
    have hfree := ns.free_spec hi
    split
    · refine .inl ⟨rfl, ?_⟩
      rw [inUse_update]
      exact (congrArg (update ns.inUse i) hfree.symm).trans (update_eq_self i _)
    · exact .inr ⟨i, rfl, hfree, ns.inUse_update i _⟩

theorem nsockAccept_spec (child : Option Nat) : (ns.nsockAccept id child).2 = none ∨
      ∃ i, (ns.nsockAccept id child).2 = some i ∧ ns.inUse i = false ∧
        (ns.nsockAccept id child).1.inUse = update ns.inUse i true := by
  simp only [nsockAccept]
  split
  · exact .inl rfl
  split
  · exact .inl rfl
  split
  case h_1 c j hj => exact .inr ⟨j, rfl, ns.free_spec hj, ns.inUse_update j _⟩
  case h_2 => exact .inl rfl

end Nsocks
end Nyx.Descriptors
