import Nyx.Process.Reaping

/-! The schedulers of the cores.

CPU 0 runs `irq_scheduler_tick` on its timer, every other core `ap_scheduler_tick`. Both go
round the process table from where they left off and keep the task they pick in the core's
`sched_cur`, a pointer: what frees a record calls `sched_forget`. The process layer runs on the
core whose current task makes the call. -/
namespace Nyx.Scheduler
open Nyx.Process Nyx.Process.Kernel Nyx.Lib

def maxCpus : Nat := 8

/-- What the schedulers keep in a task's record, besides what the process layer does:
`hasStack` says that its saved stack pointer is not `NULL`. -/
structure Turn where
  schedCpu : Nat
  hasStack : Bool
  schedQuantum : BitVec 32
  schedWeight : BitVec 32

/-- `sched_weight`, of which 0 means 1. -/
def Turn.full (t : Turn) : BitVec 32 := if t.schedWeight = 0 then 1 else t.schedWeight

/-- `idleProc` is CPU 0's idle task, once `ensure_idle_process` was called; `rr` counts the
processes placed by `smp_user_balance`. -/
structure Smp where
  kernel : Kernel
  schedCur : Fin maxCpus → Nat
  schedScan : Fin maxCpus → Nat
  turns : Nat → Turn
  idleProc : Option Nat
  cpuCount : Nat
  balance : Bool
  rr : BitVec 32

def bsp : Fin maxCpus := ⟨0, by decide⟩

namespace Smp
variable (s : Smp)

/-- `get_current_process`. -/
def getCurrentProcess (cpu : Fin maxCpus) : Option Nat :=
  if cpu ≠ bsp then if s.schedCur cpu = 0 then none else some (s.schedCur cpu)
  else s.kernel.getCurrentProcess

def schedForget (p : Nat) : Smp :=
  {s with schedCur := fun c => if s.schedCur c = p then 0 else s.schedCur c}

def setTurn (p : Nat) (f : Turn → Turn) : Smp :=
  {s with turns := Function.update s.turns p (f (s.turns p))}

/-! ### Ticks -/

/-- What a tick of CPU 0 meets: whose sleep is over, whose alarm is due, and whether the
scheduler is dormant or the core in a critical section. -/
structure Tick where
  slept : Nat → Bool
  alarm : Nat → Bool
  dormant : Bool

def sigalrm : BitVec 32 := 14#32

variable (tick : Tick) (k : Kernel)

def wakeSleeper (p : Nat) : Kernel :=
  if p ≠ 0 ∧ (k.procs p).state = .blocked ∧ tick.slept p = true then
    k.modify p fun t => {t with state := .run}
  else k

def raiseAlarm (p : Nat) : Kernel :=
  if p ≠ 0 ∧ tick.alarm p = true then k.signalRaise p sigalrm else k

def timers : Kernel := k.table.foldl (raiseAlarm tick) (k.table.foldl (wakeSleeper tick) k)

/-- A task this core may pick. -/
def runnable (cpu : Fin maxCpus) (p : Nat) : Bool :=
  p != 0 && (s.kernel.procs p).state == .run && (s.turns p).schedCpu == cpu.val &&
    (s.turns p).hasStack && ((s.kernel.procs p).pageDirectory == 0 || (s.kernel.procs p).schedManaged)

/-- The first entry, going round the table from the one after `start`. -/
def pick (start : Nat) (ok : Nat → Bool) : Option (Nat × Nat) :=
  (List.range s.kernel.table.length).findSome? fun i =>
    let idx := (start + (i + 1)) % s.kernel.table.length
    (s.kernel.table[idx]?).bind fun p => if ok p then some (idx, p) else none

/-- Remembers where to resume the outgoing task, which may be another core's. -/
def saveContext (cur : Nat) : Smp :=
  if (s.turns cur).schedCpu = 0 then s.setTurn cur fun t => {t with hasStack := true} else s

/-- The round-robin of CPU 0. With nobody else to run, the current task has another turn. -/
def nextTask (cur : Nat) : Smp :=
  match s.pick s.kernel.currentIdx fun p => some p != s.idleProc && s.runnable bsp p with
  | some (idx, p) =>
    { s.setTurn p fun t => {t with schedQuantum := t.full} with
      kernel := {s.kernel with currentIdx := idx}
      schedCur := Function.update s.schedCur bsp p }
  | none =>
    if (s.kernel.procs cur).state = .run then
      s.setTurn cur fun t => {t with schedQuantum := t.full}
    else s

/-- What `irq_scheduler_tick` does once the timers are served. -/
def schedule (dormant : Bool) : Smp :=
  match s.kernel.getCurrentProcess with
  | none => s
  | some cur =>
    if dormant then s
    else if (s.kernel.procs cur).state = .run ∧ 1 < (s.turns cur).schedQuantum then
      s.setTurn cur fun t => {t with schedQuantum := t.schedQuantum - 1}
    else (s.saveContext cur).nextTask cur

def irqSchedulerTick : Smp := {s with kernel := timers tick s.kernel}.schedule tick.dormant

/-- The round-robin of an application processor, which idles with nobody to run. -/
def apNextTask (cpu : Fin maxCpus) : Smp :=
  match s.pick (s.schedScan cpu) (s.runnable cpu) with
  | some (idx, p) =>
    { s with
      schedCur := Function.update s.schedCur cpu p
      schedScan := Function.update s.schedScan cpu idx }
  | none => {s with schedCur := Function.update s.schedCur cpu 0}

/-- `ap_scheduler_tick`; `busy` when the core is in a critical section. -/
def apSchedulerTick (cpu : Fin maxCpus) (busy : Bool) : Smp :=
  let cur := s.schedCur cpu
  let s := if cur = 0 then s else s.setTurn cur fun t => {t with hasStack := true}
  if busy then s else s.apNextTask cpu

/-! ### The process layer -/

/-- The process layer has run; if it filled in a record at `block`, that begins with
`turn`. -/
def placed (block : Nat) (turn : Turn) : Smp :=
  if k.nextPid = s.kernel.nextPid then {s with kernel := k}
  else {s with kernel := k, turns := Function.update s.turns block turn}

/-- `create_user_process` spreads processes over the cores when balancing is on. -/
def placedUser (block : Nat) : Smp :=
  if s.balance = true ∧ 1 < s.cpuCount then
    let placed := s.placed k block ⟨s.rr.toNat % s.cpuCount, true, 0, 0⟩
    if k.nextPid = s.kernel.nextPid then placed else {placed with rr := s.rr + 1}
  else s.placed k block ⟨0, true, 0, 0⟩

/-- A turn of `reap_zombies` that frees the entry `i`. -/
def reapEntry (p i : Nat) : Smp := {s with kernel := s.kernel.reapEntry p i}.schedForget p

def reapFrom (s : Smp) : (turns i : Nat) → Smp
  | 0, _ => s
  | turns + 1, i =>
    match s.kernel.table[i]? with
    | none => s
    | some p =>
      if s.kernel.reapable p i then (s.reapEntry p i).reapFrom turns i
      else s.reapFrom turns (i + 1)

def reapZombies : Smp := s.reapFrom s.kernel.table.length 0

def destroyProcess (pid : BitVec 64) : Smp :=
  match s.kernel.table.find? fun p => p != 0 && (s.kernel.procs p).pid.setWidth 64 == pid with
  | none => s
  | some p =>
    if (s.kernel.procs p).schedManaged = true ∧ (s.kernel.procs p).state ≠ .zombie then
      {s with kernel := s.kernel.destroyProcess pid}
    else {s with kernel := s.kernel.reapUserProcess p}.schedForget p

/-- A call of the process layer. `do_waitpid` frees the child it collects without
`sched_forget`. -/
def process (op : Op) : Smp :=
  let k := perform s.kernel op
  match op with
  | .createProcess entry block _ => s.placed k block ⟨0, entry, 0, 0⟩
  | .load _ _ block _ | .spawn _ _ _ block _ => s.placedUser k block
  | .fork self _ block _ _ => s.placed k block ⟨0, true, 0, (s.turns self).schedWeight⟩
  | .clone self _ _ _ _ block _ =>
    s.placed k block
      ⟨(s.turns (s.kernel.tgLeader self)).schedCpu, true, 0, (s.turns self).schedWeight⟩
  | .reapZombies => s.reapZombies
  | .destroyProcess pid => s.destroyProcess pid
  | _ => {s with kernel := k}

end Smp

/-- What happens on the machine. -/
inductive Event where
  | call (cpu : Fin maxCpus) (op : Op)
  | tick (tick : Smp.Tick)
  | apTick (cpu : Fin maxCpus) (busy : Bool)
  /-- `create_kernel_thread_on_cpu`. -/
  | threadOn (cpu : Fin maxCpus) (block stack : Nat)
  /-- `ensure_idle_process`. -/
  | idle (block stack : Nat)
  | setWeight (p : Nat) (weight : BitVec 32)
  | setBalance (on : Bool)

namespace Smp

/-- A call is made by the task that is current on its core, or by the kernel itself. -/
def step (s : Smp) : Event → Smp
  | .call cpu op =>
    if ∀ p ∈ op.caller, p ∈ s.kernel.table ∧ s.getCurrentProcess cpu = some p then s.process op
    else s
  | .tick tick => s.irqSchedulerTick tick
  | .apTick cpu busy => if cpu = bsp then s else s.apSchedulerTick cpu busy
  | .threadOn cpu block stack =>
    s.placed (s.kernel.createProcess true block stack).1 block ⟨cpu.val, true, 0, 0⟩
  | .idle block stack =>
    if s.idleProc ≠ none then s
    else
      { s.placed (s.kernel.createProcess true block stack).1 block ⟨0, true, 0, 0⟩ with
        idleProc := some (s.kernel.createProcess true block stack).2 }
  | .setWeight p weight => s.setTurn p fun t => {t with schedWeight := weight}
  | .setBalance on => {s with balance := on}

/-- The machine with `cpus` cores online, no task picked on any of them yet. -/
def boot (init cpus : Nat) : Smp :=
  ⟨Process.boot init, fun _ => 0, fun _ => 0, fun _ => ⟨0, false, 0, 0⟩, none, cpus, false, 0⟩

def after (init cpus : Nat) (events : List Event) : Smp := run step (boot init cpus) events

end Smp
end Nyx.Scheduler
