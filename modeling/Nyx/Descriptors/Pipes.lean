import Mathlib

/-! Anonymous pipes (`pipe.c`).

A pipe is a ring buffer with a count of the descriptors on each end. A process asleep in
`pipe_read` is remembered by address in `readerWaiter` (0 for none); the functions that wake
it return it, and the caller makes it runnable. -/
namespace Nyx.Descriptors

def pipeBufSize : Nat := 4096
def maxPipes : Nat := 16

instance : NeZero maxPipes := ⟨by decide⟩

structure Pipe where
  used : Bool
  buf : Fin pipeBufSize → BitVec 8
  head : Nat
  count : Nat
  readRefs : Nat
  writeRefs : Nat
  readerWaiter : Nat

def Pipe.zero : Pipe := ⟨false, fun _ => 0, 0, 0, 0, 0, 0⟩

abbrev Pipes := Fin maxPipes → Pipe

namespace Pipe
variable (p : Pipe)

def slot (n : Nat) : Fin pipeBufSize := ⟨n % pipeBufSize, Nat.mod_lt _ (by decide)⟩

/-- The loop of `pipe_write`: as many of the bytes as fit, and how many those are. -/
def push (p : Pipe) : List (BitVec 8) → Pipe × Nat
  | [] => (p, 0)
  | b :: rest =>
    if p.count < pipeBufSize then
      let stored := {p with
        buf := Function.update p.buf (slot (p.head + p.count)) b, count := p.count + 1}
      ((stored.push rest).1, (stored.push rest).2 + 1)
    else (p, 0)

/-- The loop of `pipe_read`: up to `n` bytes. -/
def drain (p : Pipe) : Nat → Pipe × List (BitVec 8)
  | 0 => (p, [])
  | n + 1 =>
    if p.count = 0 then (p, [])
    else
      let rest := {p with head := (p.head + 1) % pipeBufSize, count := p.count - 1}
      ((rest.drain n).1, p.buf (slot p.head) :: (rest.drain n).2)

/-- One more descriptor on an end. -/
def addRef (isWrite : Bool) : Pipe :=
  if isWrite then {p with writeRefs := p.writeRefs + 1} else {p with readRefs := p.readRefs + 1}

/-- The end of `pipe_close_end`: a pipe with no descriptor left is free. -/
def settle : Pipe := if p.readRefs = 0 ∧ p.writeRefs = 0 then {p with used := false} else p

/-- One descriptor fewer on an end, and whom that wakes. -/
def dropRef (isWrite : Bool) : Pipe × Nat :=
  if isWrite then
    if p.writeRefs - 1 = 0 then ({p with writeRefs := 0, readerWaiter := 0}.settle, p.readerWaiter)
    else ({p with writeRefs := p.writeRefs - 1}.settle, 0)
  else ({p with readRefs := p.readRefs - 1}.settle, 0)

end Pipe

/-- What a call of `pipe_read` comes to: `parked` sleeps and then looks again. -/
inductive ReadResult where
  | failed
  | bytes (data : List (BitVec 8))
  | parked
deriving DecidableEq

/-- A turn of the loop of `pipe_read` by the process `self`, which cannot sleep when there is
none (0). No bytes is the end of the file. -/
def Pipe.pass (p : Pipe) (n self : Nat) : Pipe × ReadResult :=
  if 0 < p.count then ((p.drain n).1, .bytes (p.drain n).2)
  else if p.writeRefs = 0 ∨ self = 0 then (p, .bytes [])
  else ({p with readerWaiter := self}, .parked)

namespace Pipes
variable (ps : Pipes)

def pipeNew : Pipes × Option (Fin maxPipes) :=
  match (List.finRange maxPipes).find? fun i => !(ps i).used with
  | none => (ps, none)
  | some i =>
    (Function.update ps i {Pipe.zero with used := true, readRefs := 1, writeRefs := 1}, some i)

/-- The check every function makes of the pipe id it is given. -/
def lookup (id : BitVec 32) : Option (Fin maxPipes) :=
  if h : id.toNat < maxPipes then if (ps ⟨id.toNat, h⟩).used then some ⟨id.toNat, h⟩ else none
  else none

theorem lookup_eq (idb : BitVec 32) (id : Fin maxPipes) :
    ps.lookup idb = some id ↔ idb = BitVec.ofNat 32 id.val ∧ (ps id).used = true := by
  have hid : idb = BitVec.ofNat 32 id.val ↔ idb.toNat = id.val := by
    rw [← BitVec.toNat_inj, BitVec.toNat_ofNat, Nat.mod_eq_of_lt]
    exact id.isLt.trans (by decide)
  simp only [lookup]
  by_cases hlt : idb.toNat < maxPipes
  · rw [dif_pos hlt, hid]
    by_cases he : idb.toNat = id.val
    · have hfin : (⟨idb.toNat, hlt⟩ : Fin maxPipes) = id := Fin.ext he
      rw [hfin]
      split
      case isTrue hu => exact ⟨fun _ => ⟨he, hu⟩, fun _ => rfl⟩
      case isFalse hu => exact ⟨fun h => (nomatch h), fun h => absurd h.2 hu⟩
    · refine ⟨fun h => ?_, fun h => absurd h.1 he⟩
      split at h
      · exact absurd (congrArg Fin.val (Option.some.inj h)) he
      · cases h
  · rw [dif_neg hlt, hid]
    exact ⟨fun h => (nomatch h), fun h => absurd (h.1 ▸ id.isLt) hlt⟩

def pipeIncref (id : BitVec 32) (isWrite : Bool) : Pipes :=
  match ps.lookup id with
  | none => ps
  | some i => Function.update ps i ((ps i).addRef isWrite)

/-- `pipe_close_end`, and the reader it wakes. -/
def pipeCloseEnd (id : BitVec 32) (isWrite : Bool) : Pipes × Nat :=
  match ps.lookup id with
  | none => (ps, 0)
  | some i => (Function.update ps i ((ps i).dropRef isWrite).1, ((ps i).dropRef isWrite).2)

/-- `pipe_write`: the number of bytes accepted, and the reader it wakes. -/
def pipeWrite (id : BitVec 32) (src : List (BitVec 8)) : Pipes × Nat × Option Nat :=
  match ps.lookup id with
  | none => (ps, 0, none)
  | some i =>
    if (ps i).readRefs = 0 then (ps, 0, none)
    else
      let (p, n) := (ps i).push src
      if n = 0 then (ps, 0, some 0)
      else (Function.update ps i {p with readerWaiter := 0}, p.readerWaiter, some n)

def pipeReadable (id : BitVec 32) : Bool :=
  match ps.lookup id with
  | none => true
  | some i => 0 < (ps i).count || (ps i).writeRefs == 0

/-- `pipe_read` by the process `self`, up to where it returns or sleeps. -/
def pipeRead (id : BitVec 32) (n self : Nat) : Pipes × ReadResult :=
  match ps.lookup id with
  | none => (ps, .failed)
  | some i =>
    if n = 0 then (ps, .failed)
    else (Function.update ps i ((ps i).pass n self).1, ((ps i).pass n self).2)

end Pipes
end Nyx.Descriptors
