import Nyx.Descriptors.Syscalls

/-! The process layer with its descriptors as one machine.

The functions of the process layer record which descriptors they drop and share; here the
pipes and sockets see it happen. A task's descriptors are closed before the rest of its death
or removal, so each function below closes them first. -/
namespace Nyx.Descriptors
open Nyx.Process Nyx.Process.Kernel Nyx.Lib

/-- The handles of a task's open descriptors. -/
def handles (t : Proc) : List (BitVec 32) :=
  ((List.finRange procMaxFds).filter t.ufdInuse).map t.ufdHandle

/-- The handles `do_fork` hands on. -/
def shared (t : Proc) : List (BitVec 32) :=
  ((List.finRange procMaxFds).filter (inheritsFd t)).map t.ufdHandle

namespace Io
variable (s : Io)

/-- What `close_proc_fds` does outside the table of `p`. -/
def closing (p : Nat) : Io := (handles (s.kernel.procs p)).foldl closeHandle s

/-- A function of the process layer, once the descriptors of `p` are closed. -/
def afterClosing (p : Nat) (f : Kernel → Kernel) : Io :=
  {s.closing p with kernel := f (s.closing p).kernel}

def exit (self : Nat) (code : BitVec 32) : Io := s.afterClosing self (·.exit self code true)

/-- The end of `isr_handler` for a fault from ring 3. -/
def userFault (self : Nat) (sig : BitVec 32) (writable : Bool) : Io :=
  match s.kernel.signalDeliverFault self sig writable with
  | (k, true) => {s with kernel := k}
  | (k, false) => {s with kernel := k}.exit self (128#32 + sig)

def reapEntry (p i : Nat) : Io := s.afterClosing p (·.reapEntry p i)

def reapFrom (s : Io) : (turns i : Nat) → Io
  | 0, _ => s
  | turns + 1, i =>
    match s.kernel.table[i]? with
    | none => s
    | some p =>
      if s.kernel.reapable p i then (s.reapEntry p i).reapFrom turns i
      else s.reapFrom turns (i + 1)

def reapZombies : Io := s.reapFrom s.kernel.table.length 0

/-- A pass of `do_waitpid`. -/
def doWaitpid (self : Nat) (wpid options : BitVec 32) : Io :=
  match s.kernel.table.findIdx? fun p =>
      s.kernel.awaited self wpid p && (s.kernel.procs p).state == .zombie with
  | some zi => s.reapEntry (s.kernel.table.getD zi 0) zi
  | none => {s with kernel := (s.kernel.doWaitpid self wpid options).1}

def destroyProcess (pid : BitVec 64) : Io :=
  match s.kernel.table.find? fun p => p != 0 && (s.kernel.procs p).pid.setWidth 64 == pid with
  | none => s
  | some p =>
    if (s.kernel.procs p).schedManaged = true ∧ (s.kernel.procs p).state ≠ .zombie then
      {s with kernel := s.kernel.destroyProcess pid}
    else s.afterClosing p (·.reapUserProcess p)

/-- `do_fork`. The pipe ends are shared once the child has a record, whether or not it then
gets a stack. -/
def doFork (self dir block stack : Nat) (bufs : Fin procMaxVmas → Nat) : Io :=
  let k := (s.kernel.doFork self dir block stack bufs).1
  let given := if k.nextPid = s.kernel.nextPid then [] else shared (s.kernel.procs self)
  given.foldl pipeIncref {s with kernel := k}

/-- An operation of the process layer. Files are mapped by `SYS_MMAP`, so a mapping made
here is anonymous. -/
def process : Op → Io
  | .exit self code => s.exit self code
  | .userFault self sig writable => s.userFault self sig writable
  | .reapZombies => s.reapZombies
  | .waitpid self wpid options => s.doWaitpid self wpid options
  | .destroyProcess pid => s.destroyProcess pid
  | .fork self dir block stack bufs => s.doFork self dir block stack bufs
  | .mmap self length prot file block readable =>
    (s.sysMmap self length prot none file.off block readable ⟨true, true, 0⟩).1
  | op => {s with kernel := Process.perform s.kernel op}

end Io

/-- An entry into the kernel, with what it meets there. -/
inductive Sys where
  | process (op : Op)
  | open (self : Nat) (node : Option Node) (append : Bool) (env : Env)
  | read (self : Nat) (fd : BitVec 32) (count : Nat) (env : Env)
  | write (self : Nat) (fd : BitVec 32) (src : List (BitVec 8)) (env : Env)
  | close (self : Nat) (fd : BitVec 32)
  | fsize (self : Nat) (fd : BitVec 32) (env : Env)
  | fstat (self : Nat) (fd : BitVec 32) (env : Env)
  | lseek (self : Nat) (fd : BitVec 32) (offset : BitVec 64) (whence : BitVec 32) (env : Env)
  | dup2 (self : Nat) (oldfd newfd : BitVec 32)
  | dup (self : Nat) (oldfd : BitVec 32)
  | pipe (self : Nat) (env : Env)
  | socket (self : Nat) (type : BitVec 32) (env : Env)
  | accept (self : Nat) (fd : BitVec 32) (child : Option Nat)
  | connect (self : Nat) (fd : BitVec 32) (conn : Option Nat) (env : Env)
  | bind (self : Nat) (fd : BitVec 32) (port : BitVec 16) (env : Env)
  | listen (self : Nat) (fd : BitVec 32) (conn : Option Nat) (env : Env)
  | sendto (self : Nat) (fd : BitVec 32) (ephemeral : BitVec 16) (env : Env)
  | recvfrom (self : Nat) (fd : BitVec 32) (env : Env)
  | poll (self : Nat) (fds : List (BitVec 32 × Bool))
  | mmap (self : Nat) (length : BitVec 64) (prot : BitVec 32) (fd : BitVec 32) (off : BitVec 32)
      (block : Nat) (readable : Bool) (env : Env)
  | getdents (node : Option Node) (turns : Nat)
  | readFile (node : Option Node)

namespace Sys

def caller : Sys → Option Nat
  | process op => op.caller
  | .open self .. | read self .. | write self .. | close self _ | fsize self .. | fstat self ..
  | lseek self .. | dup2 self .. | dup self _ | pipe self _ | socket self .. | accept self ..
  | connect self .. | bind self .. | listen self .. | sendto self .. | recvfrom self ..
  | poll self _ | mmap self .. => some self
  | getdents .. | readFile _ => none

def perform (s : Io) : Sys → Io
  | process op => s.process op
  | .open self node append env => (s.sysOpen self node append env).1
  | read self fd count env => (s.sysRead self fd count env).1
  | write self fd src env => (s.sysWrite self fd src env).1
  | close self fd => (s.sysClose self fd).1
  | fsize self fd env => (s.sysFsize self fd env).1
  | fstat self fd env => (s.sysFstat self fd env).1
  | lseek self fd offset whence env => (s.sysLseek self fd offset whence env).1
  | dup2 self oldfd newfd => (s.sysDup2 self oldfd newfd).1
  | dup self oldfd => (s.sysDup self oldfd).1
  | pipe self env => (s.sysPipe self env).1
  | socket self type env => (s.sysSocket self type env).1
  | accept self fd child => (s.sysAccept self fd child).1
  | connect self fd conn env => (s.sysConnect self fd conn env).1
  | bind self fd port env => (s.sysBind self fd port env).1
  | listen self fd conn env => (s.sysListen self fd conn env).1
  | sendto self fd ephemeral env => (s.sysSendto self fd ephemeral env).1
  | recvfrom self fd env => (s.sysRecvfrom self fd env).1
  | poll self fds => Io.sysPoll self fds s
  | mmap self length prot fd off block readable env =>
    (s.sysMmap self length prot (some fd) off block readable env).1
  | getdents node turns => s.sysGetdents node turns
  | readFile node => s.readFile node

end Sys

namespace Io

def step (s : Io) (sys : Sys) : Io :=
  if ∀ p ∈ sys.caller, p ∈ s.kernel.table then sys.perform s else s

def boot (init : Nat) : Io := ⟨Process.boot init, fun _ => .zero, fun _ => .zero, [], fun _ => 0⟩

def after (init : Nat) (calls : List Sys) : Io := run step (boot init) calls

end Io
end Nyx.Descriptors
