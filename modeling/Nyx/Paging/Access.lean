import Nyx.Paging.Fault

/-! Reaching user memory: from ring 3 through the hardware's walk, with the fault handler
behind it, and from the kernel through `user_v2p` (`kernel/syscall.c`). -/
namespace Nyx.Paging
open Process (userSpaceMin userSpaceEnd)
open Lib

/-! ### From ring 3 -/

/-- What the hardware makes of an address. -/
inductive Translation where
  | absent
  | denied
  | page (frame : Ptr)
deriving DecidableEq, Repr

/-- Does an entry let ring 3 read, or write, what is behind it? -/
def allows (write : Bool) (e : BitVec 64) : Bool := has e pageUser && (!write || has e pageWritable)

namespace Machine

/-- The hardware's walk: presence is checked level by level, the permissions of all levels
apply together. -/
def hardwareWalk (m : Machine) (write : Bool) : List (BitVec 9) → Bool → Ptr → Translation
  | [], ok, p => if ok then .page p else .denied
  | i :: rest, ok, tbl =>
    let e := m.word tbl i
    if has e pagePresent then m.hardwareWalk write rest (ok && allows write e) (frameOf e)
    else .absent

def translate (m : Machine) (pml4 : Ptr) (virt : BitVec 64) (write : Bool) : Translation :=
  m.hardwareWalk write [index virt 39, index virt 30, index virt 21, index virt 12] true pml4

end Machine

def pageOffset (virt : BitVec 64) : BitVec 12 := virt.extractLsb' 0 12

inductive Access where
  | read
  | write (b : BitVec 8)
deriving DecidableEq, Repr

def Access.isWrite : Access → Bool
  | .read => false
  | .write _ => true

namespace Machine

variable (m : Machine) (p : Ptr)

def setByte (o : BitVec 12) (b : BitVec 8) : Machine :=
  m.setBytes p (Function.update (m.byte p) o b)

def complete (o : BitVec 12) : Access → Machine × BitVec 8
  | .read => (m, m.byte p o)
  | .write b => (m.setByte p o b, b)

def faultCode (present write : Bool) : BitVec 64 :=
  0x4#64 ||| (if write then 0x2#64 else 0#64) ||| (if present then 0x1#64 else 0#64)

/-- An access by a process, retried each time the handler resolves its fault. Nothing is
returned when the process is sent `SIGSEGV` instead, or faults in every attempt. -/
def access (pml4 : Ptr) (sp : Space) (virt : BitVec 64) (a : Access) :
    (attempts : Nat) → Machine → Machine × Option (BitVec 8)
  | 0, m => (m, none)
  | attempts + 1, m =>
    match m.translate pml4 virt a.isWrite with
    | .page p =>
      let (m, b) := m.complete p (pageOffset virt) a
      (m, some b)
    | fault =>
      match m.vmHandleFault pml4 sp virt (faultCode (fault == .denied) a.isWrite) with
      | (m, true) => access pml4 sp virt a attempts m
      | (m, false) => (m, none)

/-- The kernel's half is mapped for the supervisor only; a process that reaches for it is
sent `SIGSEGV`. -/
def touch (pml4 : Ptr) (sp : Space) (virt : BitVec 64) (a : Access) : Machine × Option (BitVec 8) :=
  if virt < userSpaceEnd then access pml4 sp virt a 3 m else (m, none)

/-! ### From the kernel -/

def ptAddr2M : BitVec 64 := 0x000FFFFFFFE00000#64
def ptAddr1G : BitVec 64 := 0x000FFFFFC0000000#64

/-- `user_v2p` with `user_cr3` at `cr3`; 0 is a refusal. Every level must be present and open
to ring 3, but no level need be writable. -/
def userV2p (cr3 : Ptr) (vaddr : BitVec 64) : Ptr :=
  let open5 (e : BitVec 64) : Bool := e &&& 5#64 == 5#64
  if cr3 = 0#64 then 0#64
  else if vaddr < userSpaceMin ∨ userSpaceEnd ≤ vaddr then 0#64
  else
    let e := m.word (frameOf cr3) (index vaddr 39)
    if !open5 e then 0#64
    else
      let e := m.word (frameOf e) (index vaddr 30)
      if !open5 e then 0#64
      else if has e pageHuge then (e &&& ptAddr1G) + (vaddr &&& 0x3FFFFFFF#64)
      else
        let e := m.word (frameOf e) (index vaddr 21)
        if !open5 e then 0#64
        else if has e pageHuge then (e &&& ptAddr2M) + (vaddr &&& 0x1FFFFF#64)
        else
          let e := m.word (frameOf e) (index vaddr 12)
          if !open5 e then 0#64 else frameOf e + (vaddr &&& 0xFFF#64)

def poke (b : BitVec 8) : Machine := m.setByte (p &&& ~~~0xFFF#64) (pageOffset p) b

/-- `copy_to_user`: byte by byte, up to the first address `user_v2p` refuses. -/
def copyToUser (cr3 : Ptr) (udst : BitVec 64) (src : List (BitVec 8)) : Machine × Bool :=
  forEach (fun m (i, b) =>
      let p := m.userV2p cr3 (udst + BitVec.ofNat 64 i)
      if p = 0#64 then (m, false) else (m.poke p b, true))
    (src.zipIdx.map fun (b, i) => (i, b)) m

end Machine

end Nyx.Paging
