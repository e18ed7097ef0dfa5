import Nyx.Lib.Run
import Nyx.Process.Regions
import Nyx.Process.Signals

/-! The process layer as one machine: what the kernel can be asked to do, by whom, and the
state it is in afterwards. -/
namespace Nyx.Process

/-- An entry into the kernel, with the choices its environment makes on the way. -/
inductive Op where
  /-- `create_process`, for kernel threads. -/
  | createProcess (entry : Bool) (block stack : Nat)
  /-- `elf_load_args`, for `init.elf` and `SYS_EXEC`. -/
  | load (image : Kernel.Load) (rsp : BitVec 64) (block stack : Nat)
  /-- `spawn_user_path_args`. -/
  | spawn (parent : Option Nat) (image : Kernel.Load) (rsp : BitVec 64) (block stack : Nat)
  | fork (self dir block stack : Nat) (bufs : Fin procMaxVmas → Nat)
  | clone (self : Nat) (fn stack arg flags : BitVec 64) (block kstack : Nat)
  | execve (self : Nat) (image : Kernel.Load) (argc sp : BitVec 64)
  | exit (self : Nat) (code : BitVec 32)
  | waitpid (self : Nat) (wpid options : BitVec 32)
  | kwait (self : Nat) (pid : BitVec 32)
  | reapZombies
  | destroyProcess (pid : BitVec 64)
  | mmap (self : Nat) (length : BitVec 64) (prot : BitVec 32) (file : Kernel.FileArg)
      (block : Nat) (readable : Bool)
  | mprotect (self : Nat) (addr length : BitVec 64) (prot : BitVec 32)
  | munmap (self : Nat) (addr length : BitVec 64)
  | signal (self : Nat) (sig : BitVec 32) (handler trampoline : BitVec 64)
  | kill (pid sig : BitVec 32)
  | dispatch (self : Nat) (writable : Bool)
  | resumed (self : Nat)
  | userFault (self : Nat) (sig : BitVec 32) (writable : Bool)
  | sigreturn (self : Nat)
  | sigprocmask (self : Nat) (how set : BitVec 32) (writable : Bool)
  /-- A task enters the kernel with this context. -/
  | trap (self : Nat) (frame : Frame)

def Op.caller : Op → Option Nat
  | .fork self .. | .clone self .. | .execve self .. | .exit self .. | .waitpid self ..
  | .kwait self .. | .mmap self .. | .mprotect self .. | .munmap self .. | .signal self ..
  | .dispatch self .. | .resumed self | .userFault self .. | .sigreturn self
  | .sigprocmask self .. | .trap self _ => some self
  | .spawn parent .. => parent
  | .createProcess .. | .load .. | .reapZombies | .destroyProcess .. | .kill .. => none

def perform (k : Kernel) : Op → Kernel
  | .createProcess entry block stack => (k.createProcess entry block stack).1
  | .load image rsp block stack => (k.elfLoadArgs image rsp block stack).1
  | .spawn parent image rsp block stack => (k.spawnUserPathArgs parent image rsp block stack).1
  | .fork self dir block stack bufs => (k.doFork self dir block stack bufs).1
  | .clone self fn stack arg flags block kstack =>
    (k.doClone self fn stack arg flags block kstack).1
  | .execve self image argc sp => (k.doExecve self image argc sp).1
  | .exit self code => k.exit self code true
  | .waitpid self wpid options => (k.doWaitpid self wpid options).1
  | .kwait self pid => (k.kwait self pid).1
  | .reapZombies => k.reapZombies
  | .destroyProcess pid => k.destroyProcess pid
  | .mmap self length prot file block readable =>
    (k.doMmap self length prot file block readable).1
  | .mprotect self addr length prot => (k.doMprotect self addr length prot).1
  | .munmap self addr length => (k.doMunmap self addr length).1
  | .signal self sig handler trampoline => (k.doSignal self sig handler trampoline).1
  | .kill pid sig => (k.doKill pid sig).1
  | .dispatch self writable => k.signalDispatch self writable
  | .resumed self => k.resumed self
  | .userFault self sig writable => k.userFault self sig writable
  | .sigreturn self => k.doSigreturn self
  | .sigprocmask self how set writable => (k.doSigprocmask self how set writable).1
  | .trap self frame => k.modify self fun t => {t with frame := frame}

def step (k : Kernel) (op : Op) : Kernel := if ∀ p ∈ op.caller, p ∈ k.table then perform k op else k

/-- The kernel once its process table is set up, the heap giving `init` for the first task. -/
def boot (init : Nat) : Kernel := Kernel.empty.initProcess init

def after (init : Nat) (ops : List Op) : Kernel := Lib.run step (boot init) ops

end Nyx.Process
