import Nyx.Process.Resources

/-! The instruction pointers the kernel sends tasks to.

`elf_load_image` checks the entry point, because an `iretq` to a non-canonical address
faults in ring 0. `do_signal` and `do_clone` store any address
(`unchecked_handler_is_built`). With handlers and thread functions in user space every context
the kernel builds is (`built_contexts_in_user_space`). -/
namespace Nyx.Process
open Nyx.Lib Kernel

/-- The law stated for `e_entry`. -/
def UserRip (rip : BitVec 64) : Prop := userSpaceMin ≤ rip ∧ rip < userSpaceEnd

instance (rip : BitVec 64) : Decidable (UserRip rip) := inferInstanceAs (Decidable (_ ∧ _))

/-- `SIG_DFL`, `SIG_IGN` or a handler in user space. -/
def Disposition (handler : BitVec 64) : Prop :=
  handler = Kernel.sigDfl ∨ handler = Kernel.sigIgn ∨ UserRip handler

instance (handler : BitVec 64) : Decidable (Disposition handler) :=
  inferInstanceAs (Decidable (_ ∨ _ ∨ _))

/-- The part of the kernel that these contexts depend on. -/
structure Contexts where
  handlers : Nat → Fin nsig → BitVec 64
  built : List (BitVec 64)

/-- Every handler a task has is a disposition, and every context built was in user space. -/
structure Contexts.Ranged (c : Contexts) : Prop where
  handlers : ∀ p s, Disposition (c.handlers p s)
  built : ∀ rip ∈ c.built, UserRip rip

def Resources.contexts (r : Resources) : Contexts := ⟨r.handlers, r.built⟩

def Kernel.contexts (k : Kernel) : Contexts := ⟨fun p => (k.procs p).sigHandlers, k.built⟩

/-! ### What leaves the contexts alone -/

namespace Kernel

section
variable (k : Kernel) (p : Nat) (f : Proc → Proc)

@[simp] theorem contexts_modify (h : ∀ t, (f t).sigHandlers = t.sigHandlers) :
    (k.modify p f).contexts = k.contexts := by
  have hhandler := k.modify_field p f Proc.sigHandlers h
  unfold contexts
  simp only [hhandler]
  rfl

theorem contexts_eq : k.contexts = k.resources.contexts := rfl

variable {k} in
theorem contexts_quiet {k' : Kernel} (h : k'.resources = k.resources) :
    k'.contexts = k.contexts := by
  rw [contexts_eq, h, ← contexts_eq]

variable {k} in
theorem contexts_heap {k' : Kernel} (h : k'.settings = k.settings) : k'.contexts = k.contexts :=
  congrArg (fun s : Settings => (⟨s.handlers, s.built⟩ : Contexts)) h

@[simp] theorem contexts_allocPageDirectory (choice : Nat) :
    (k.allocPageDirectory choice).1.contexts = k.contexts := by
  unfold allocPageDirectory
  split <;> rfl

@[simp] theorem contexts_freePageDirectory (dir owner : Nat) :
    (k.freePageDirectory dir owner).contexts = k.contexts := by
  unfold freePageDirectory
  split <;> rfl

@[simp] theorem contexts_append : (k.append p).contexts = k.contexts := rfl

variable (i : Nat)

@[simp] theorem contexts_removeEntry : (k.removeEntry i).contexts = k.contexts := rfl

@[simp] theorem contexts_patchIndex : (k.patchIndex i).contexts = k.contexts := rfl

@[simp] theorem contexts_increfPipes (t : Proc) : (k.increfPipes t).contexts = k.contexts := rfl

@[simp] theorem contexts_kfree (block : Nat) : (k.kfree block).contexts = k.contexts :=
  contexts_heap (k.settings_kfree block)

@[simp] theorem contexts_initTaskStack (stack : Nat) (frame : Frame) :
    (k.initTaskStack p stack frame).1.contexts = k.contexts :=
  contexts_heap (k.settings_initTaskStack p stack frame)

@[simp] theorem contexts_dupBufs (bufs : Fin procMaxVmas → Nat) :
    (k.dupBufs p bufs).contexts = k.contexts := contexts_heap (k.settings_dupBufs p bufs)

@[simp] theorem contexts_foldl_dropVma (l : List (Fin procMaxVmas)) :
    (l.foldl (dropVma p) k).contexts = k.contexts := contexts_heap (k.settings_foldl_dropVma p l)

@[simp] theorem contexts_tearDown : (k.tearDown p).contexts = k.contexts := by
  have hheap : ((k.tgReassignLeader p).mmapFreeBufs p).contexts = k.contexts :=
    contexts_heap (by simp)
  unfold tearDown releaseSpace
  dsimp only
  split <;> simpa using hheap

@[simp] theorem contexts_reapEntry : (k.reapEntry p i).contexts = k.contexts := by
  unfold reapEntry
  rw [contexts_kfree, contexts_removeEntry, contexts_patchIndex, contexts_tearDown,
    contexts_quiet (k.resources_closeProcFds p)]

@[simp] theorem contexts_reapUserProcess : (k.reapUserProcess p).contexts = k.contexts := by
  have hclosed := contexts_quiet (k.resources_closeProcFds p)
  unfold reapUserProcess
  rw [contexts_kfree, contexts_tearDown]
  split <;> exact hclosed

theorem contexts_reapFrom (turns : Nat) :
    ∀ (k : Kernel) (i : Nat), (k.reapFrom turns i).contexts = k.contexts := by
  induction turns with
  | zero => exact fun _ _ => rfl
  | succ turns ih =>
    intro k i
    unfold reapFrom
    split
    · rfl
    split
    · rw [ih, contexts_reapEntry]
    · exact ih k (i + 1)

theorem contexts_destroyProcess (pid : BitVec 64) :
    (k.destroyProcess pid).contexts = k.contexts := by
  unfold destroyProcess
  split
  · rfl
  split
  · rw [contexts_quiet (resources_wakeWaiters _ _), contexts_modify _ _ _ (by simp)]
  · rw [contexts_reapUserProcess]

theorem contexts_doWaitpid (wpid options : BitVec 32) :
    (k.doWaitpid p wpid options).1.contexts = k.contexts := by
  unfold doWaitpid
  split
  · rfl
  split
  · simp
  split
  · simp
  · split <;> simp

end

/-! ### New contexts and new handlers -/

variable {k : Kernel} {p : Nat}

theorem ranged_congr {k' : Kernel} (he : k'.contexts = k.contexts) (h : k.contexts.Ranged) :
    k'.contexts.Ranged := he ▸ h

theorem ranged_build (h : k.contexts.Ranged) {rip : BitVec 64} (hrip : UserRip rip) :
    (k.build rip).contexts.Ranged := by
  refine ⟨h.handlers, ?_⟩
  intro r hr
  rcases List.mem_append.mp hr with hr | hr
  · exact h.built r hr
  · exact List.mem_singleton.mp hr ▸ hrip

theorem ranged_modify (h : k.contexts.Ranged) {f : Proc → Proc}
    (hf : ∀ s, Disposition ((f (k.procs p)).sigHandlers s)) :
    (k.modify p f).contexts.Ranged := by
  refine ⟨?_, h.built⟩
  intro q s
  show Disposition (((k.modify p f).procs q).sigHandlers s)
  rcases eq_or_ne q p with rfl | hq
  · rw [modify_procs_self]
    exact hf s
  rw [modify_procs_ne k p f hq]
  exact h.handlers q s

theorem ranged_newTask (h : k.contexts.Ranged) (block : Nat) {f : BitVec 32 → Proc}
    (hf : ∀ pid s, Disposition ((f pid).sigHandlers s)) :
    (k.newTask block f).1.contexts.Ranged := by
  have hk := ranged_congr (contexts_heap (k.settings_kmalloc block)) h
  unfold newTask
  dsimp only
  split
  · exact hk
  exact ranged_modify (k := {(k.kmalloc block).1 with nextPid := (k.kmalloc block).1.nextPid + 1})
    (f := fun _ => f ((k.kmalloc block).1.nextPid.setWidth 32)) hk fun s => hf _ s

theorem ranged_diverted {k' : Kernel} (h : k.contexts.Ranged) (hd : k.Diverted k' p) :
    k'.contexts.Ranged := by
  rcases hd with he | ⟨s, hdfl, hign, he⟩
  · exact ranged_congr (contexts_quiet he) h
  have hrip : UserRip ((k.procs p).sigHandlers s) := by
    rcases h.handlers p s with hh | hh | hh
    · exact absurd hh hdfl
    · exact absurd hh hign
    · exact hh
  rw [contexts_eq, he]
  exact ranged_build h hrip

/-! ### The operations -/

theorem disposition_default : Disposition 0 := .inl rfl

theorem ranged_createProcess (h : k.contexts.Ranged) (entry : Bool) (block stack : Nat) :
    (k.createProcess entry block stack).1.contexts.Ranged := by
  have hnew := ranged_newTask h block (f := kernelProc) fun _ _ => disposition_default
  unfold createProcess
  dsimp only
  split
  · exact h
  split
  · exact hnew
  split
  · split <;> exact ranged_congr (by simp) hnew
  · exact hnew

theorem ranged_createUserProcess (h : k.contexts.Ranged) {entry : BitVec 64}
    (hentry : UserRip entry) (rsp : BitVec 64) (dir block stack : Nat) :
    (k.createUserProcess entry rsp dir block stack).1.contexts.Ranged := by
  have hnew := ranged_newTask h block (f := userProc dir) fun _ _ => disposition_default
  unfold createUserProcess
  dsimp only
  split
  · exact h
  split
  · exact hnew
  split
  · rw [contexts_append]
    exact ranged_build (ranged_congr (by simp) hnew) hentry
  · exact ranged_congr (by simp) hnew

theorem contexts_elfLoadImage (k : Kernel) (load : Load) :
    (k.elfLoadImage load).1.contexts = k.contexts := by
  cases load with
  | refused => rfl
  | abandoned choice => simp [elfLoadImage]
  | loaded choice entry brk =>
    unfold elfLoadImage
    dsimp only
    split
    · simp
    · split <;> simp

section
variable (h : k.contexts.Ranged)
include h

theorem ranged_elfLoadArgs (load : Load) (rsp : BitVec 64) (block stack : Nat) :
    (k.elfLoadArgs load rsp block stack).1.contexts.Ranged := by
  have himage := ranged_congr (contexts_elfLoadImage k load) h
  unfold elfLoadArgs
  split
  case h_1 k' hload =>
    rw [hload] at himage
    exact himage
  case h_2 k' dir entry brk hload =>
    rw [hload] at himage
    have hmade := ranged_createUserProcess himage (k.elfLoadImage_entry hload) rsp dir block stack
    split
    case h_1 k'' hcreate =>
      rw [hcreate] at hmade
      exact ranged_congr (contexts_freePageDirectory ..) hmade
    case h_2 k'' p hcreate =>
      rw [hcreate] at hmade
      exact ranged_congr (by simp) hmade

theorem ranged_spawnUserPathArgs (parent : Option Nat) (load : Load) (rsp : BitVec 64)
    (block stack : Nat) : (k.spawnUserPathArgs parent load rsp block stack).1.contexts.Ranged := by
  have hloaded := ranged_elfLoadArgs h load rsp block stack
  unfold spawnUserPathArgs
  dsimp only
  split
  · exact hloaded
  · exact ranged_congr (by simp) hloaded

/-- A child has its parent's handlers and returns where its parent trapped. -/
theorem ranged_doFork (self dirChoice block stack : Nat) (bufs : Fin procMaxVmas → Nat) :
    (k.doFork self dirChoice block stack bufs).1.contexts.Ranged := by
  have halloc := ranged_congr (k.contexts_allocPageDirectory dirChoice) h
  have hnew := ranged_newTask halloc block
    (f := forkedProc (k.procs self) (k.allocPageDirectory dirChoice).2)
    fun _ s => h.handlers self s
  unfold doFork
  dsimp only
  split
  · exact h
  split
  · exact halloc
  split
  · exact ranged_congr (contexts_freePageDirectory ..) hnew
  · split <;> exact ranged_congr (by simp) hnew

theorem ranged_doClone (self : Nat) {fn : BitVec 64} (hfn : UserRip fn)
    (stack arg flags : BitVec 64) (block kstack : Nat) :
    (k.doClone self fn stack arg flags block kstack).1.contexts.Ranged := by
  have hnew := ranged_newTask h block
    (f := clonedProc (k.procs self) (k.procs (k.tgLeader self)).pid)
    fun _ s => h.handlers self s
  unfold doClone
  dsimp only
  split
  · exact h
  split
  · exact hnew
  split
  · rw [contexts_append, contexts_modify _ _ _ (by simp), contexts_modify _ _ _ (by simp)]
    exact ranged_build (ranged_congr (by simp) hnew) hfn
  · exact ranged_congr (by simp) hnew

theorem ranged_doExecve (self : Nat) (load : Load) (argc sp : BitVec 64) :
    (k.doExecve self load argc sp).1.contexts.Ranged := by
  have himage := ranged_congr (contexts_elfLoadImage k load) h
  unfold doExecve
  dsimp only
  split
  · exact h
  split
  case h_1 k' hload =>
    rw [hload] at himage
    exact himage
  case h_2 k' dir entry brk hload =>
    rw [hload] at himage
    have hre : (k'.modify self (reimagedProc · dir brk)).contexts.Ranged :=
      ranged_modify himage fun _ => disposition_default
    refine ranged_build ?_ (k.elfLoadImage_entry hload)
    refine ranged_congr ?_ hre
    split <;> simp

theorem ranged_doSignal {sig : BitVec 32} {handler : BitVec 64} (hhandler : Disposition handler)
    (trampoline : BitVec 64) : (k.doSignal p sig handler trampoline).1.contexts.Ranged := by
  unfold doSignal
  split
  · exact h
  case h_2 s _ =>
    split
    · exact h
    refine ranged_modify (f := (install · s handler trampoline)) h fun s' => ?_
    show Disposition (Function.update (k.procs p).sigHandlers s handler s')
    rw [Function.update_apply]
    split
    · exact hhandler
    · exact h.handlers p s'

end

end Kernel

/-! ### Runs -/

/-- The address checks `do_signal` and `do_clone` do not make. -/
def UserAddresses : Op → Prop
  | .signal _ _ handler _ => Disposition handler
  | .clone _ fn .. => UserRip fn
  | _ => True

instance : DecidablePred UserAddresses
  | .signal _ _ handler _ => inferInstanceAs (Decidable (Disposition handler))
  | .clone _ fn .. => inferInstanceAs (Decidable (UserRip fn))
  | .createProcess .. | .load .. | .spawn .. | .fork .. | .execve .. | .exit .. | .waitpid ..
  | .kwait .. | .reapZombies | .destroyProcess .. | .mmap .. | .mprotect .. | .munmap ..
  | .kill .. | .dispatch .. | .resumed .. | .userFault .. | .sigreturn .. | .sigprocmask ..
  | .trap .. => .isTrue trivial

theorem ranged_boot (init : Nat) : (boot init).contexts.Ranged := by
  have hempty : empty.contexts.Ranged :=
    ⟨fun _ _ => disposition_default, fun _ hr => absurd hr List.not_mem_nil⟩
  have hnew := ranged_newTask hempty init (f := kernelProc) fun _ _ => disposition_default
  unfold boot initProcess
  dsimp only
  split <;> exact hnew

theorem ranged_quiet {k k' : Kernel} (he : k'.resources = k.resources) (h : k.contexts.Ranged) :
    k'.contexts.Ranged := ranged_congr (contexts_quiet he) h

theorem ranged_heap {k k' : Kernel} (he : k'.settings = k.settings) (h : k.contexts.Ranged) :
    k'.contexts.Ranged := ranged_congr (Kernel.contexts_heap he) h

theorem ranged_step (k : Kernel) (op : Op) (hop : UserAddresses op) (h : k.contexts.Ranged) :
    (step k op).contexts.Ranged := by
  unfold step
  split
  case isFalse => exact h
  case isTrue =>
    cases op with
    | createProcess => exact ranged_createProcess h ..
    | load => exact ranged_elfLoadArgs h ..
    | spawn => exact ranged_spawnUserPathArgs h ..
    | fork => exact ranged_doFork h ..
    | clone self => exact ranged_doClone h self hop ..
    | execve => exact ranged_doExecve h ..
    | exit self code => exact ranged_quiet (k.resources_exit self code true) h
    | waitpid => exact ranged_congr (k.contexts_doWaitpid ..) h
    | kwait => exact ranged_quiet (k.resources_kwait ..) h
    | reapZombies => exact ranged_congr (contexts_reapFrom _ k 0) h
    | destroyProcess pid => exact ranged_congr (k.contexts_destroyProcess pid) h
    | mmap => exact ranged_heap (blind_settings.doMmap ..) h
    | mprotect => exact ranged_heap (blind_settings.doMprotect ..) h
    | munmap => exact ranged_heap (blind_settings.doMunmap ..) h
    | signal => exact ranged_doSignal h hop ..
    | kill => exact ranged_quiet (k.resources_doKill ..) h
    | dispatch => exact ranged_diverted h (k.diverted_signalDispatch ..)
    | resumed self => exact ranged_quiet (k.resources_clearPending self sigcont) h
    | userFault => exact ranged_diverted h (k.diverted_userFault ..)
    | sigreturn self => exact ranged_quiet (k.resources_doSigreturn self) h
    | sigprocmask => exact ranged_quiet (k.resources_doSigprocmask ..) h
    | trap => exact ranged_quiet (by simp [perform]) h

/-- As long as `signal` is passed dispositions and `clone` functions in user space, every
context the kernel builds for ring 3 is in user space, whatever is forked, executed and
delivered. -/
theorem built_contexts_in_user_space (init : Nat) (ops : List Op)
    (h : ∀ op ∈ ops, UserAddresses op) : ∀ rip ∈ (after init ops).built, UserRip rip :=
  (run_keeps_of (P := fun k : Kernel => k.contexts.Ranged) ranged_step _ ops h
    (ranged_boot init)).built

/-- A task is loaded, installs a handler for `SIGUSR1` and is sent that signal. -/
def signalled (handler : BitVec 64) : List Op :=
  [.load (.loaded 1 0x400000#64 0x500000#64) 0x7FFFFFFFEFE0#64 2 3,
    .signal 2 10#32 handler 0x400100#64, .kill 2#32 10#32, .dispatch 2 true]

theorem built_contexts_handler_entered :
    (after 1 (signalled 0x401000#64)).built = [0x400000#64, 0x401000#64] ∧
      ∀ rip ∈ (after 1 (signalled 0x401000#64)).built, UserRip rip :=
  ⟨by decide, built_contexts_in_user_space 1 (signalled 0x401000#64) (by decide)⟩

/-- The task returns to ring 3 at a non-canonical address. -/
theorem unchecked_handler_is_built :
    ¬ ∀ rip ∈ (after 1 (signalled 0x8000000000000000#64)).built, UserRip rip := by
  have hbuilt : (after 1 (signalled 0x8000000000000000#64)).built =
      [0x400000#64, 0x8000000000000000#64] := by decide
  intro h
  have hrip : UserRip 0x8000000000000000#64 := h _ (by simp [hbuilt])
  revert hrip
  decide

end Nyx.Process
