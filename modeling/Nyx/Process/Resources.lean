import Nyx.Process.System

/-! What the operations do to everything a task owns, points at or may be diverted to.

`Resources` is the part of the kernel that the invariants of the process layer depend on.
Most signal and scheduling code leaves it alone; delivering a signal only adds to the contexts
that were built, and only the address of a handler of the task itself. -/
namespace Nyx.Process

structure Resources where
  table : List Nat
  heap : Nat → Bool
  kfrees : List Kfree
  dirs : Nat → Bool
  teardowns : List Teardown
  kernelStacks : Nat → Nat
  regions : Nat → Fin procMaxVmas → Vma
  directory : Nat → Nat
  handlers : Nat → Fin nsig → BitVec 64
  built : List (BitVec 64)

def Resources.setHandler (r : Resources) (p : Nat) (s : Fin nsig) (handler : BitVec 64) :
    Resources :=
  let changed := Function.update (r.handlers p) s handler
  {r with handlers := Function.update r.handlers p changed}

namespace Kernel

def resources (k : Kernel) : Resources where
  table := k.table
  heap := k.heap
  kfrees := k.kfrees
  dirs := k.dirs
  teardowns := k.teardowns
  kernelStacks := fun p => (k.procs p).kernelStack
  regions := fun p => (k.procs p).mmapVmas
  directory := fun p => (k.procs p).pageDirectory
  handlers := fun p => (k.procs p).sigHandlers
  built := k.built

section
variable (k : Kernel) (p : Nat) (f : Proc → Proc)

@[simp] theorem resources_modify (hs : ∀ t, (f t).kernelStack = t.kernelStack)
    (hv : ∀ t, (f t).mmapVmas = t.mmapVmas) (hd : ∀ t, (f t).pageDirectory = t.pageDirectory)
    (hh : ∀ t, (f t).sigHandlers = t.sigHandlers) : (k.modify p f).resources = k.resources := by
  have hstack := k.modify_field p f Proc.kernelStack hs
  have hregion := k.modify_field p f Proc.mmapVmas hv
  have hdir := k.modify_field p f Proc.pageDirectory hd
  have hhandler := k.modify_field p f Proc.sigHandlers hh
  unfold resources
  simp only [hstack, hregion, hdir, hhandler]
  rfl

@[simp] theorem resources_closeProcFds : (k.closeProcFds p).resources = k.resources :=
  k.resources_modify p (fun t => {t with ufdInuse := fun _ => false}) (fun _ => rfl)
    (fun _ => rfl) (fun _ => rfl) fun _ => rfl

@[simp] theorem resources_wakeWaiters : (k.wakeWaiters p).resources = k.resources := by
  unfold wakeWaiters
  dsimp only
  split
  · rfl
  split
  · rfl
  · split <;> simp

@[simp] theorem resources_exit (code : BitVec 32) (close : Bool) :
    (k.exit p code close).resources = k.resources := by
  unfold exit
  cases close <;> simp

theorem resources_kwait (pid : BitVec 32) : (k.kwait p pid).1.resources = k.resources := by
  unfold kwait
  split
  · rfl
  · split <;> simp

variable (s : Fin nsig) (sig : BitVec 32)

@[simp] theorem resources_signalRaise : (k.signalRaise p sig).resources = k.resources := by
  unfold signalRaise
  split
  · rfl
  dsimp only
  split <;> split <;> simp

theorem resources_doKill (pid sig : BitVec 32) : (k.doKill pid sig).1.resources = k.resources := by
  unfold doKill
  split
  · rfl
  · split <;> simp

@[simp] theorem resources_clearPending : (k.modify p (clearPending s)).resources = k.resources :=
  k.resources_modify p _ (fun _ => rfl) (fun _ => rfl) (fun _ => rfl) fun _ => rfl

@[simp] theorem resources_divert (disp : BitVec 64) :
    (k.modify p (divert · s disp)).resources = k.resources :=
  k.resources_modify p _ (fun _ => rfl) (fun _ => rfl) (fun _ => rfl) fun _ => rfl

theorem resources_doSigreturn : (k.doSigreturn p).resources = k.resources := by
  unfold doSigreturn
  split <;> simp

theorem resources_doSigprocmask (how set : BitVec 32) (writable : Bool) :
    (k.doSigprocmask p how set writable).1.resources = k.resources := by
  unfold doSigprocmask
  split <;> simp

variable (writable : Bool) (handler trampoline : BitVec 64)

theorem resources_install : (k.modify p (install · s handler trampoline)).resources =
      k.resources.setHandler p s handler := by
  have hstack := k.modify_field p (install · s handler trampoline) Proc.kernelStack fun _ => rfl
  have hregion := k.modify_field p (install · s handler trampoline) Proc.mmapVmas fun _ => rfl
  have hdir := k.modify_field p (install · s handler trampoline) Proc.pageDirectory fun _ => rfl
  have hhandler (q : Nat) : ((k.modify p (install · s handler trampoline)).procs q).sigHandlers =
      (k.resources.setHandler p s handler).handlers q := by
    unfold Resources.setHandler
    dsimp only
    rcases eq_or_ne q p with rfl | hq
    · rw [modify_procs_self, Function.update_self]
      rfl
    rw [modify_procs_ne _ _ _ hq, Function.update_of_ne hq]
    rfl
  show Resources.mk _ _ _ _ _ _ _ _ _ _ = _
  simp only [hstack, hregion, hdir, hhandler]
  rfl

/-- `do_signal` changes one handler of the task, at most. -/
theorem resources_doSignal : (k.doSignal p sig handler trampoline).1.resources = k.resources ∨
      ∃ s, signo sig = some s ∧ uncatchable s = false ∧
        (k.doSignal p sig handler trampoline).1.resources = k.resources.setHandler p s handler := by
  unfold doSignal
  split
  · exact .inl rfl
  case h_2 s hs =>
    split
    · exact .inl rfl
    case isFalse hc =>
      exact .inr ⟨s, hs, Bool.eq_false_iff.mpr hc, k.resources_install p s handler trampoline⟩

/-! ### Contexts that are built -/

theorem resources_build (rip : BitVec 64) :
    (k.build rip).resources = {k.resources with built := k.built ++ [rip]} := rfl

/-- A handler of the task may have been entered; nothing else happened. -/
def Diverted (k k' : Kernel) (p : Nat) : Prop :=
  k'.resources = k.resources ∨
    ∃ s, (k.procs p).sigHandlers s ≠ sigDfl ∧ (k.procs p).sigHandlers s ≠ sigIgn ∧
      k'.resources = {k.resources with built := k.built ++ [(k.procs p).sigHandlers s]}

theorem diverted_build (hdfl : (k.procs p).sigHandlers s ≠ sigDfl)
    (hign : (k.procs p).sigHandlers s ≠ sigIgn) {k' : Kernel} (h : k'.resources = k.resources) :
    k.Diverted (k'.build ((k.procs p).sigHandlers s)) p := by
  refine .inr ⟨s, hdfl, hign, ?_⟩
  have hbuilt : k'.built = k.built := congrArg Resources.built h
  rw [resources_build, h, hbuilt]

theorem diverted_deliver {disp : BitVec 64}
    (hdisp : disp ≠ sigDfl → disp = (k.procs p).sigHandlers s) :
    k.Diverted (k.deliver p s disp writable) p := by
  unfold deliver
  split
  · exact .inl (by simp)
  case isFalse hign =>
    split
    · refine .inl ?_
      split
      · simp
      · split <;> simp [stop]
    case isFalse hdfl =>
      split
      · exact .inl rfl
      split
      · have he := hdisp hdfl
        subst he
        exact k.diverted_build p s hdfl hign (by simp)
      · exact .inl (by simp)

theorem diverted_signalDispatch : k.Diverted (k.signalDispatch p writable) p := by
  unfold signalDispatch
  dsimp only
  split
  · exact .inl rfl
  split
  · exact .inl rfl
  refine k.diverted_deliver p _ writable ?_
  split
  · exact fun h => absurd rfl h
  · exact fun _ => rfl

theorem diverted_signalDeliverFault : k.Diverted (k.signalDeliverFault p sig writable).1 p := by
  unfold signalDeliverFault
  dsimp only
  split
  · exact .inl rfl
  split
  · exact .inl rfl
  case h_2 s _ =>
    split
    · exact .inl rfl
    case isFalse hc =>
      split
      · exact .inl (by simp)
      exact k.diverted_build p s (fun h => hc (.inr (.inl h)))
        (fun h => hc (.inr (.inr (.inl h)))) (by simp)

theorem diverted_userFault : k.Diverted (k.userFault p sig writable) p := by
  have h := k.diverted_signalDeliverFault p sig writable
  unfold userFault
  split
  case h_1 k' hk =>
    rw [hk] at h
    exact h
  case h_2 k' hk =>
    rw [hk] at h
    unfold Diverted
    rw [resources_exit]
    exact h

end

/-! ### Heap work

Giving tasks their blocks, freeing them and moving them between tasks touches neither the
address spaces nor the contexts of anyone. -/

/-- What heap work leaves alone. -/
structure Settings where
  table : List Nat
  dirs : Nat → Bool
  teardowns : List Teardown
  directory : Nat → Nat
  handlers : Nat → Fin nsig → BitVec 64
  built : List (BitVec 64)

def settings (k : Kernel) : Settings :=
  ⟨k.table, k.dirs, k.teardowns, fun p => (k.procs p).pageDirectory,
    fun p => (k.procs p).sigHandlers, k.built⟩

section
variable (k : Kernel) (p : Nat) (f : Proc → Proc)

@[simp] theorem settings_modify (hd : ∀ t, (f t).pageDirectory = t.pageDirectory)
    (hh : ∀ t, (f t).sigHandlers = t.sigHandlers) : (k.modify p f).settings = k.settings := by
  have hdir := k.modify_field p f Proc.pageDirectory hd
  have hhandler := k.modify_field p f Proc.sigHandlers hh
  unfold settings
  simp only [hdir, hhandler]
  rfl

@[simp] theorem settings_kmalloc (choice : Nat) : (k.kmalloc choice).1.settings = k.settings := by
  unfold kmalloc
  split <;> rfl

@[simp] theorem settings_kfree (block : Nat) : (k.kfree block).settings = k.settings := by
  unfold kfree
  split <;> rfl

@[simp] theorem settings_initTaskStack (stack : Nat) (frame : Frame) :
    (k.initTaskStack p stack frame).1.settings = k.settings := by
  unfold initTaskStack
  dsimp only
  split <;> simp

theorem blind_settings : Blind settings :=
  ⟨settings_kmalloc, settings_kfree, fun k p f hf => k.settings_modify p f
    (fun t => (congrArg Proc.pageDirectory (hf t)).trans rfl)
    fun t => (congrArg Proc.sigHandlers (hf t)).trans rfl⟩

@[simp] theorem settings_dupBufs (bufs : Fin procMaxVmas → Nat) :
    (k.dupBufs p bufs).settings = k.settings := blind_settings.dupBufs k p bufs

@[simp] theorem settings_mmapFreeBufs : (k.mmapFreeBufs p).settings = k.settings :=
  blind_settings.mmapFreeBufs k p

@[simp] theorem settings_foldl_dropVma (l : List (Fin procMaxVmas)) :
    (l.foldl (dropVma p) k).settings = k.settings := blind_settings.foldl_dropVma k p l

theorem settings_repoint (pid : BitVec 32) : (k.repoint p pid).settings = k.settings := by
  have hprocs (q : Nat) : ((k.repoint p pid).procs q).pageDirectory = (k.procs q).pageDirectory ∧
        ((k.repoint p pid).procs q).sigHandlers = (k.procs q).sigHandlers := by
    unfold repoint
    dsimp only
    split <;> exact ⟨rfl, rfl⟩
  unfold settings
  simp only [hprocs]
  rfl

@[simp] theorem settings_tgReassignLeader : (k.tgReassignLeader p).settings = k.settings := by
  unfold tgReassignLeader
  split
  · rfl
  case h_2 heir _ =>
    have hinherit := k.settings_modify heir (inherit (k.procs p)) (fun _ => rfl) fun _ => rfl
    have hleft := (k.modify heir (inherit (k.procs p))).settings_modify p relinquish
      (fun _ => rfl) fun _ => rfl
    rw [settings_modify _ _ _ (by simp) (by simp), settings_repoint, hleft, hinherit]

variable (addr length : BitVec 64)

/-! ### The loader -/

/-- What `elf_load_image` hands back has passed its range check. -/
theorem elfLoadImage_entry {load : Load} {k' : Kernel} {dir : Nat} {entry brk : BitVec 64}
    (h : k.elfLoadImage load = (k', some (dir, entry, brk))) :
    userSpaceMin ≤ entry ∧ entry < userSpaceEnd := by
  cases load with
  | refused => exact nomatch congrArg Prod.snd h
  | abandoned choice => exact nomatch congrArg Prod.snd h
  | loaded choice e b =>
    unfold elfLoadImage at h
    dsimp only at h
    split at h
    · exact nomatch congrArg Prod.snd h
    split at h
    · exact nomatch congrArg Prod.snd h
    case isFalse hc =>
      injection h with _ h
      injection h with h
      injection h with _ h
      injection h with he _
      subst he
      rw [not_or] at hc
      exact ⟨BitVec.not_lt.mp hc.1, BitVec.not_le.mp hc.2⟩

end
end Kernel
end Nyx.Process
