import Nyx.Paging.System

/-! Futexes (`do_futex` in `kernel/process.c`) over the memory of the processes.

A sleeping task is found by the physical address of the word it sleeps on. The state keeps,
beside the fields of a task that `do_futex` reads, the locals of the `FUTEX_WAIT` it is inside
of: the address it asked for, and its key when the call began. One core runs the tasks; a
system call is over, or its caller asleep, before the next one starts. -/
namespace Nyx.Futex
open Paging Lib
open Process (PState maxProcesses)

/-- The locals of a `FUTEX_WAIT`. -/
structure Wait where
  uaddr : BitVec 64
  val : BitVec 32
  key : Ptr
deriving DecidableEq, Repr

structure Task where
  pageDirectory : Ptr
  state : PState
  futexKey : Ptr
  /-- The `FUTEX_WAIT` the task is inside of. -/
  wait : Option Wait
deriving DecidableEq, Repr

structure Futexes where
  system : System
  table : List Nat
  tasks : Nat → Task

def futexWait : BitVec 32 := 0#32
def futexWake : BitVec 32 := 1#32

/-- What a pass of `do_futex` ends in: `parked` sleeps until the task runs again. -/
inductive Outcome where
  | returned (r : Int)
  | parked
deriving DecidableEq, Repr

/-- `*(volatile uint32_t*)p`, for an aligned physical address. -/
def load32 (m : Machine) (p : Ptr) : BitVec 32 :=
  let byte (n : BitVec 64) : BitVec 8 := m.byte (p &&& ~~~0xFFF#64) (pageOffset (p + n))
  byte 3#64 ++ byte 2#64 ++ byte 1#64 ++ byte 0#64

/-- A task that `FUTEX_WAKE` releases. -/
def released (t : Task) : Task := {t with futexKey := 0#64, state := .run}

def sleepsOn (tasks : Nat → Task) (key : Ptr) (p : Nat) : Bool :=
  p != 0 && (tasks p).state == .blocked && (tasks p).futexKey == key

/-- The loop of `FUTEX_WAKE` over the rest of the table. The bound is compared as an `int`. -/
def wakeFrom (key : Ptr) (val : BitVec 32) : List Nat → Nat → (Nat → Task) → (Nat → Task) × Nat
  | [], woken, tasks => (tasks, woken)
  | p :: rest, woken, tasks =>
    if (woken : Int) < val.toInt then
      if sleepsOn tasks key p then
        wakeFrom key val rest (woken + 1) (Function.update tasks p (released (tasks p)))
      else wakeFrom key val rest woken tasks
    else (tasks, woken)

namespace Futexes

variable (s : Futexes)

def setTask (p : Nat) (t : Task) : Futexes := {s with tasks := Function.update s.tasks p t}

/-- The physical address of the word; 0 where `do_futex` returns -1. -/
def key (self : Nat) (uaddr : BitVec 64) : Ptr :=
  let pd := (s.tasks self).pageDirectory
  if pd = 0#64 ∨ uaddr &&& 3#64 ≠ 0#64 then 0#64 else s.system.machine.userV2p pd uaddr

/-- The end of a `FUTEX_WAIT`. -/
def leave (self : Nat) : Futexes :=
  s.setTask self {s.tasks self with futexKey := 0#64, state := .run, wait := none}

def pass (s : Futexes) (self : Nat) (w : Wait) : Futexes × Outcome :=
  if load32 s.system.machine w.key ≠ w.val then (s.leave self, .returned 0)
  else
    (s.setTask self {s.tasks self with futexKey := w.key, state := .blocked, wait := some w}, .parked)

def doFutex (self : Nat) (uaddr : BitVec 64) (op val : BitVec 32) : Futexes × Outcome :=
  if s.key self uaddr = 0#64 then (s, .returned (-1))
  else if op = futexWake then
    let (tasks, woken) := wakeFrom (s.key self uaddr) val s.table 0 s.tasks
    ({s with tasks}, .returned woken)
  else if op ≠ futexWait then (s, .returned (-1))
  else s.pass self ⟨uaddr, val, s.key self uaddr⟩

/-- A task inside of `FUTEX_WAIT` runs again: a wake-up has cleared its key, or it makes
another pass with the key it has. -/
def resume (self : Nat) (w : Wait) : Futexes :=
  if (s.tasks self).futexKey = 0#64 then s.leave self else (s.pass self w).1

def enter (p : Nat) (pd : Ptr) : Futexes :=
  {s.setTask p ⟨pd, .run, 0#64, none⟩ with table := s.table ++ [p]}

/-- `do_fork`: the child gets a page directory of its own. -/
def fork (s : Futexes) (self p : Nat) (room : Bool) : Futexes :=
  let pd := (s.tasks self).pageDirectory
  match s.system.spaces pd with
  | none => s
  | some sp =>
    let child := (s.system.machine.clonePageDirectoryCow pd).2
    let s := {s with system := s.system.fork pd sp room}
    if child ≠ 0#64 ∧ room then s.enter p child else s

end Futexes

/-- The address space a call is made in, for the calls that leave page directories alone. -/
def space : Paging.Op → Option Ptr
  | .touch pd .. | .sbrk pd _ | .mmap pd .. | .munmap pd .. | .mprotect pd .. | .dlopen pd ..
  | .copyOut pd .. => some pd
  | .spawn .. | .execve .. | .fork .. | .exit _ => none

inductive Event where
  | futex (self : Nat) (uaddr : BitVec 64) (op val : BitVec 32)
  /-- The scheduler picks a task that is inside of `FUTEX_WAIT`. -/
  | resume (self : Nat)
  /-- A store or a load of a task, or a call that maps memory. -/
  | memory (self : Nat) (op : Paging.Op)
  | fork (self p : Nat) (room : Bool)
  | clone (self p : Nat)
  /-- A task sleeps in another call. -/
  | sleep (self : Nat)
  /-- `signal_raise`, a timer or a wake-up of another call, for a task that sleeps. -/
  | raise (p : Nat)
  | exit (self : Nat)
  /-- A dead task leaves the table. -/
  | reap (i : Nat)

namespace Futexes

/-- `self` runs in user mode, or has just entered the kernel. -/
def Runs (s : Futexes) (self : Nat) : Prop :=
  self ∈ s.table ∧ (s.tasks self).state = .run ∧ (s.tasks self).wait = none

instance (s : Futexes) (self : Nat) : Decidable (s.Runs self) := inferInstanceAs (Decidable (_ ∧ _))

/-- There is room for a task at `p`. -/
def Vacant (s : Futexes) (p : Nat) : Prop := p ≠ 0 ∧ p ∉ s.table ∧ s.table.length < maxProcesses

instance (s : Futexes) (p : Nat) : Decidable (s.Vacant p) := inferInstanceAs (Decidable (_ ∧ _))

def step (s : Futexes) : Event → Futexes
  | .futex self uaddr op val => if s.Runs self then (s.doFutex self uaddr op val).1 else s
  | .resume self =>
    match (s.tasks self).wait with
    | none => s
    | some w => if self ∈ s.table ∧ (s.tasks self).state = .run then s.resume self w else s
  | .memory self op =>
    if s.Runs self ∧ space op = some (s.tasks self).pageDirectory then
      {s with system := s.system.step op}
    else s
  | .fork self p room => if s.Runs self ∧ s.Vacant p then s.fork self p room else s
  | .clone self p =>
    if s.Runs self ∧ s.Vacant p then s.enter p (s.tasks self).pageDirectory else s
  | .sleep self =>
    if s.Runs self then s.setTask self {s.tasks self with state := .blocked} else s
  | .raise p =>
    if p ∈ s.table ∧ (s.tasks p).state = .blocked then
      s.setTask p {s.tasks p with state := .run}
    else s
  | .exit self => if s.Runs self then s.setTask self {s.tasks self with state := .zombie} else s
  | .reap i =>
    match s.table[i]? with
    | none => s
    | some p => if (s.tasks p).state = .zombie then {s with table := swapRemove s.table i} else s

end Futexes

/-- The tasks there are at first, none of them in a futex call. -/
structure Crew where
  table : List Nat
  pageDirectory : Nat → Ptr
  once : table.Nodup
  nonnull : 0 ∉ table
  room : table.length ≤ maxProcesses

variable (system : System)

def Futexes.start (crew : Crew) : Futexes :=
  ⟨system, crew.table, fun p => ⟨crew.pageDirectory p, .run, 0#64, none⟩⟩

def Futexes.after (crew : Crew) (events : List Event) : Futexes :=
  run Futexes.step (.start system crew) events

end Nyx.Futex
