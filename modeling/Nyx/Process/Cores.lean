import Nyx.Process.System

/-! What the table says about its tasks: who they are, whose child, in which group and
address space, whether they run, and which descriptors they hold.

`Core` is that part of a task record and `Cores` of the kernel. Heap work, region tables,
page directories and signal masks leave all of it alone; this is said here for every function,
what the others do to it where it is needed. -/
namespace Nyx.Process
open Nyx.Lib

structure Core where
  pid : BitVec 32
  ppid : BitVec 32
  tgid : BitVec 32
  state : PState
  pageDirectory : Nat
  waitingFor : BitVec 32
  stopSig : BitVec 32
  stoppedReported : Bool
  exitCode : BitVec 32
  ufdInuse : Fin procMaxFds → Bool
  ufdHandle : Fin procMaxFds → BitVec 32
  ufdOffset : Fin procMaxFds → BitVec 32

def Proc.core (t : Proc) : Core :=
  ⟨t.pid, t.ppid, t.tgid, t.state, t.pageDirectory, t.waitingFor, t.stopSig, t.stoppedReported,
    t.exitCode, t.ufdInuse, t.ufdHandle, t.ufdOffset⟩

structure Cores where
  table : List Nat
  nextPid : BitVec 64
  currentIdx : Nat
  fdCalls : List FdCall
  core : Nat → Core

def Cores.modify (c : Cores) (p : Nat) (g : Core → Core) : Cores :=
  {c with core := Function.update c.core p (g (c.core p))}

/-- The table and the index after the entry `i` was taken out by `reap_zombies` or
`do_waitpid`. -/
def Cores.reap (c : Cores) (i : Nat) : Cores :=
  { c with
    table := swapRemove c.table i
    currentIdx := if c.currentIdx = c.table.length - 1 then i else c.currentIdx }

namespace Kernel

def cores (k : Kernel) : Cores :=
  ⟨k.table, k.nextPid, k.currentIdx, k.fdCalls, fun p => (k.procs p).core⟩

theorem core_of_cores {k k' : Kernel} (h : k'.cores = k.cores) (p : Nat) :
    (k'.procs p).core = (k.procs p).core := congrFun (congrArg Cores.core h) p

section
variable (k : Kernel) (p : Nat)

@[simp] theorem cores_modify (f : Proc → Proc) (hf : ∀ t, (f t).core = t.core) :
    (k.modify p f).cores = k.cores := by
  have hcore := k.modify_field p f Proc.core hf
  simp only [cores, hcore]
  rfl

theorem cores_modify_core {f : Proc → Proc} {g : Core → Core} (hf : ∀ t, (f t).core = g t.core) :
    (k.modify p f).cores = k.cores.modify p g := by
  have hcore : (fun q => ((k.modify p f).procs q).core) =
      Function.update k.cores.core p (g (k.procs p).core) := by
    funext q
    rcases eq_or_ne q p with rfl | hq
    · rw [modify_procs_self, Function.update_self, hf]
    rw [modify_procs_ne k p f hq, Function.update_of_ne hq]
    rfl
  show Cores.mk _ _ _ _ _ = Cores.mk _ _ _ _ _
  rw [hcore]
  rfl

variable (addr length : BitVec 64) (sig : BitVec 32) (choice : Nat)

@[simp] theorem cores_kmalloc : (k.kmalloc choice).1.cores = k.cores := by
  simp only [kmalloc]
  split <;> rfl

@[simp] theorem cores_kfree (block : Nat) : (k.kfree block).cores = k.cores := by
  simp only [kfree]
  split <;> rfl

@[simp] theorem cores_allocPageDirectory : (k.allocPageDirectory choice).1.cores = k.cores := by
  simp only [allocPageDirectory]
  split <;> rfl

@[simp] theorem cores_freePageDirectory (dir owner : Nat) :
    (k.freePageDirectory dir owner).cores = k.cores := by
  simp only [freePageDirectory]
  split <;> rfl

@[simp] theorem cores_build (rip : BitVec 64) : (k.build rip).cores = k.cores := rfl

@[simp] theorem cores_initTaskStack (stack : Nat) (frame : Frame) :
    (k.initTaskStack p stack frame).1.cores = k.cores := by
  simp only [initTaskStack]
  split
  · exact k.cores_kmalloc stack
  refine (cores_modify _ p _ ?_).trans (k.cores_kmalloc stack)
  exact fun _ => rfl

@[simp] theorem cores_elfLoadImage (load : Load) : (k.elfLoadImage load).1.cores = k.cores := by
  cases load with
  | refused => rfl
  | abandoned choice => simp [elfLoadImage]
  | loaded choice entry brk =>
    simp only [elfLoadImage]
    split
    · exact k.cores_allocPageDirectory choice
    · split <;> simp

/-! ### Region tables -/

theorem blind_cores : Blind cores :=
  ⟨cores_kmalloc, cores_kfree, fun k p f hf => k.cores_modify p f fun t =>
    (congrArg Proc.core (hf t)).trans rfl⟩

@[simp] theorem cores_dupBufs (bufs : Fin procMaxVmas → Nat) :
    (k.dupBufs p bufs).cores = k.cores := blind_cores.dupBufs k p bufs

@[simp] theorem cores_mmapFreeBufs : (k.mmapFreeBufs p).cores = k.cores :=
  blind_cores.mmapFreeBufs k p

@[simp] theorem cores_foldl_dropVma (l : List (Fin procMaxVmas)) :
    (l.foldl (dropVma p) k).cores = k.cores := blind_cores.foldl_dropVma k p l

@[simp] theorem cores_mmapNext (a : BitVec 64) :
    (k.modify p fun t => {t with mmapNext := a}).cores = k.cores := k.cores_modify p _ fun _ => rfl

@[simp] theorem cores_releaseSpace : (k.releaseSpace p).cores = k.cores := by
  simp only [releaseSpace]
  split <;> simp

@[simp] theorem cores_tearDown : (k.tearDown p).cores = (k.tgReassignLeader p).cores := by
  simp only [tearDown, cores_releaseSpace, cores_mmapFreeBufs]

/-! ### Images and signal dispositions -/

@[simp] theorem cores_frame (frame : Frame) :
    (k.modify p fun t => {t with frame := frame}).cores = k.cores := k.cores_modify p _ fun _ => rfl

/-- An image that does not load changes nothing, one that does gives the caller another
page directory. -/
theorem doExecve_outcome (load : Load) (argc sp : BitVec 64) :
    (k.doExecve p load argc sp).1.cores = k.cores ∨
      (k.doExecve p load argc sp).2 = 0#32 ∧ ∃ dir, (k.doExecve p load argc sp).1.cores =
        k.cores.modify p fun c => {c with pageDirectory := dir} := by
  have hsame := k.cores_elfLoadImage load
  simp only [doExecve]
  split
  · exact .inl rfl
  split
  case h_1 k' he =>
    rw [he] at hsame
    exact .inl hsame
  case h_2 k' dir entry brk he =>
    rw [he] at hsame
    refine .inr ⟨rfl, dir, ?_⟩
    have himage : (k'.modify p (reimagedProc · dir brk)).cores =
        k.cores.modify p fun c => {c with pageDirectory := dir} := by
      rw [← show k'.cores = k.cores from hsame]
      exact k'.cores_modify_core p fun _ => rfl
    have hloop := ((cores_mmapNext _ p 0).trans (cores_foldl_dropVma _ p
      (List.finRange procMaxVmas))).trans himage
    generalize Kernel.modify (List.foldl _ _ _) p _ = k₁ at hloop ⊢
    rw [cores_build, cores_frame]
    split
    · exact hloop
    · exact (cores_freePageDirectory ..).trans hloop

theorem cores_doSignal (handler trampoline : BitVec 64) :
    (k.doSignal p sig handler trampoline).1.cores = k.cores := by
  simp only [doSignal]
  split
  · rfl
  split
  · rfl
  · exact cores_modify _ _ _ fun _ => rfl

theorem cores_doSigreturn : (k.doSigreturn p).cores = k.cores := by
  simp only [doSigreturn]
  split
  · rfl
  · exact cores_modify _ _ _ fun _ => rfl

theorem cores_doSigprocmask (how set : BitVec 32) (writable : Bool) :
    (k.doSigprocmask p how set writable).1.cores = k.cores := by
  simp only [doSigprocmask]
  split
  · exact cores_modify _ _ _ fun _ => rfl
  · rfl

@[simp] theorem cores_clearPending (s : Fin nsig) : (k.modify p (clearPending s)).cores = k.cores :=
  cores_modify _ _ _ fun _ => rfl

@[simp] theorem cores_divert (s : Fin nsig) (disp : BitVec 64) :
    (k.modify p (divert · s disp)).cores = k.cores := cores_modify _ _ _ fun _ => rfl

@[simp] theorem cores_sigSaved : (k.modify p fun t => {t with sigSaved := t.frame}).cores = k.cores :=
  cores_modify _ _ _ fun _ => rfl

theorem cores_signalDeliverFault (writable : Bool) :
    (k.signalDeliverFault p sig writable).1.cores = k.cores := by
  simp only [signalDeliverFault]
  split
  · rfl
  split
  · rfl
  split
  · rfl
  · split
    · exact k.cores_sigSaved p
    · exact (cores_build ..).trans (k.cores_divert p _ _)

/-! ### Leaving the table -/

theorem cores_reapEntry (i : Nat) : (k.reapEntry p i).cores =
    ((k.closeProcFds p).tgReassignLeader p).cores.reap i := by
  simp only [reapEntry, cores_kfree]
  rw [← cores_tearDown]
  generalize (k.closeProcFds p).tearDown p = k₁
  rfl

theorem cores_reapUserProcess (hp : p ∈ k.table) : (k.reapUserProcess p).cores =
    (((k.closeProcFds p).removeEntry (k.table.idxOf p)).tgReassignLeader p).cores := by
  rw [reapUserProcess_eq hp, cores_kfree, cores_tearDown]

end

/-- Operations that leave the cores of all tasks alone. -/
def isQuiet : Op → Bool
  | .mmap .. | .mprotect .. | .munmap .. | .signal .. | .resumed .. | .sigreturn ..
  | .sigprocmask .. | .trap .. => true
  | _ => false

theorem cores_quiet (k : Kernel) {op : Op} (hop : isQuiet op = true) :
    (perform k op).cores = k.cores := by
  cases op with
  | mmap => exact blind_cores.doMmap ..
  | mprotect => exact blind_cores.doMprotect ..
  | munmap => exact blind_cores.doMunmap ..
  | signal => exact k.cores_doSignal ..
  | resumed => exact k.cores_clearPending ..
  | sigreturn => exact k.cores_doSigreturn ..
  | sigprocmask => exact k.cores_doSigprocmask ..
  | trap => exact k.cores_frame ..
  | _ => cases hop

end Kernel
end Nyx.Process
