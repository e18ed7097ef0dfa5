import Nyx.Process.Births

/-! What the kernel does to the signal state of its tasks.

`SigState` is that part of a task record, and `SigAct` lists everything that ever happens
to it, with its guard. Every entry into the kernel performs, on every task, a list of acts
that the entry asks for (`Acts`); apart from that it only fills in the record of a new task
(`Fills`). What holds of signal states is then shown act by act. -/
namespace Nyx.Process
open Nyx.Lib Function Kernel

structure SigState where
  pending : BitVec 32
  mask : BitVec 32
  active : BitVec 32
  handlers : Fin nsig → BitVec 64
  trampoline : BitVec 64
  saved : Frame

namespace SigState

def zero : SigState := ⟨0, 0, 0, fun _ => 0, 0, .zero⟩

/-- What a child starts with. -/
def handed (g : SigState) : SigState := ⟨0, g.mask, 0, g.handlers, g.trampoline, .zero⟩

end SigState

@[reducible] def Proc.sig (t : Proc) : SigState :=
  ⟨t.sigPending, t.sigMask, t.sigActive, t.sigHandlers, t.sigTrampoline, t.sigSaved⟩

inductive SigAct where
  | raise (s : Fin nsig)
  | consume (s : Fin nsig)
  | install (s : Fin nsig) (handler trampoline : BitVec 64)
  /-- The context is saved and the handler of `s` entered. -/
  | enter (s : Fin nsig) (context : Frame)
  /-- The context is saved, and then the handler cannot be entered. -/
  | save (context : Frame)
  | sigreturn
  | remask (how set : BitVec 32)
  | reimage

namespace SigAct
open Kernel

def apply (g : SigState) : SigAct → SigState
  | .raise s => {g with pending := g.pending ||| sigBit s}
  | .consume s => {g with pending := g.pending &&& ~~~sigBit s}
  | .install s handler trampoline =>
    { g with
      handlers := Function.update g.handlers s handler
      trampoline := if trampoline ≠ 0#64 then trampoline else g.trampoline
      pending := if handler = sigIgn then g.pending &&& ~~~sigBit s else g.pending }
  | .enter s context =>
    {g with saved := context, active := g.active ||| sigBit s, mask := g.mask ||| sigBit s}
  | .save context => {g with saved := context}
  | .sigreturn => {g with mask := g.mask &&& ~~~g.active, active := 0}
  | .remask how set =>
    {g with mask := maskAfter how g.mask set, active := g.active &&& maskAfter how g.mask set}
  | .reimage => {SigState.zero with saved := g.saved}

/-- The guards: only signals that can be caught have handlers, and the slot for the saved
context is written only while no handler is active. -/
def Allowed (g : SigState) : SigAct → Prop
  | .install s .. => uncatchable s = false
  | .enter s _ => uncatchable s = false ∧ g.active = 0#32
  | .save _ => g.active = 0#32
  | .raise _ | .consume _ | .sigreturn | .remask .. | .reimage => True

end SigAct

namespace Kernel

def sigs (k : Kernel) (p : Nat) : SigState := (k.procs p).sig

/-- The acts on `p` that an entry into the kernel can lead to. -/
def Asks (k : Kernel) (p : Nat) : Op → SigAct → Prop
  | .kill .., a => ∃ s, a = .raise s
  | .dispatch self _, a =>
    p = self ∧ ((∃ s, a = .consume s) ∨ (∃ s, a = .enter s (k.procs p).frame) ∨
      a = .save (k.procs p).frame)
  | .userFault self .., a =>
    p = self ∧ ((∃ s, a = .enter s (k.procs p).frame) ∨ a = .save (k.procs p).frame)
  | .resumed self, a => p = self ∧ a = .consume sigcont
  | .signal self _ handler trampoline, a => p = self ∧ ∃ s, a = .install s handler trampoline
  | .sigreturn self, a => p = self ∧ a = .sigreturn
  | .sigprocmask self how set writable, a => p = self ∧ writable = true ∧ a = .remask how set
  | .execve self image argc sp, a =>
    p = self ∧ (k.doExecve self image argc sp).2 = 0#32 ∧ a = .reimage
  | _, _ => False

/-- `p` goes through these acts, and no other task through any. -/
def Acted (k k' : Kernel) (p : Nat) (acts : List SigAct) : Prop :=
  k'.sigs = Function.update k.sigs p (run SigAct.apply (k.sigs p) acts)

/-- `p` goes through acts that were asked for, each under its guard. -/
def Acts (k k' : Kernel) (asked : SigAct → Prop) (p : Nat) : Prop :=
  ∃ acts, (∀ a ∈ acts, asked a) ∧
    Admissible SigAct.apply SigAct.Allowed (k.sigs p) acts ∧ Acted k k' p acts

/-- The record `p`, a block nobody had, starts with `new`; it may have entered the table. -/
structure Begun (k k' : Kernel) (p : Nat) (new : SigState) : Prop where
  nonnull : p ≠ 0
  free : k.heap p = false
  sigs : k'.sigs = Function.update k.sigs p new
  table : k'.table = k.table ∨ k'.table = k.table ++ [p]

def Fills (k k' : Kernel) (new : SigState) : Prop :=
  (k'.sigs = k.sigs ∧ k'.table = k.table) ∨ ∃ p, Begun k k' p new

/-! ### What leaves signal states alone -/

section
variable (k : Kernel) (p : Nat)

theorem sigs_of_procs {k k' : Kernel} (h : k'.procs = k.procs) : k'.sigs = k.sigs := by
  funext q
  rw [sigs, sigs, h]

variable (addr length : BitVec 64) (f : Proc → Proc) (i : Nat)

@[simp] theorem sigs_modify (hf : ∀ t, (f t).sig = t.sig) :
    (k.modify p f).sigs = k.sigs := funext (k.modify_field p f Proc.sig hf)

theorem sigs_modify_update : (k.modify p f).sigs = update k.sigs p (f (k.procs p)).sig := by
  funext q
  rcases eq_or_ne q p with rfl | hq
  · rw [update_self, sigs, modify_procs_self]
  · rw [update_of_ne hq, sigs, modify_procs_ne k p f hq, sigs]

@[simp] theorem sigs_kmalloc (choice : Nat) : (k.kmalloc choice).1.sigs = k.sigs :=
  sigs_of_procs (k.kmalloc_procs choice)

@[simp] theorem sigs_kfree (block : Nat) : (k.kfree block).sigs = k.sigs :=
  sigs_of_procs (k.kfree_procs block)

@[simp] theorem sigs_allocPageDirectory (choice : Nat) :
    (k.allocPageDirectory choice).1.sigs = k.sigs :=
  sigs_of_procs (k.allocPageDirectory_procs choice)

@[simp] theorem sigs_freePageDirectory (dir owner : Nat) :
    (k.freePageDirectory dir owner).sigs = k.sigs :=
  sigs_of_procs (k.freePageDirectory_procs dir owner)

@[simp] theorem sigs_build (rip : BitVec 64) : (k.build rip).sigs = k.sigs := rfl

@[simp] theorem sigs_append : (k.append p).sigs = k.sigs := rfl

@[simp] theorem sigs_increfPipes (t : Proc) : (k.increfPipes t).sigs = k.sigs := rfl

@[simp] theorem sigs_removeEntry : (k.removeEntry i).sigs = k.sigs := rfl

@[simp] theorem sigs_patchIndex : (k.patchIndex i).sigs = k.sigs := rfl

@[simp] theorem sigs_initTaskStack (stack : Nat) (frame : Frame) :
    (k.initTaskStack p stack frame).1.sigs = k.sigs := by
  simp only [initTaskStack]
  split <;> simp

@[simp] theorem sigs_elfLoadImage (load : Load) : (k.elfLoadImage load).1.sigs = k.sigs :=
  sigs_of_procs (k.elfLoadImage_same load).2

theorem blind_sigs : Blind sigs :=
  ⟨sigs_kmalloc, sigs_kfree, fun k p f hf => k.sigs_modify p f fun t =>
    (congrArg Proc.sig (hf t)).trans rfl⟩

@[simp] theorem sigs_dupBufs (bufs : Fin procMaxVmas → Nat) : (k.dupBufs p bufs).sigs = k.sigs :=
  blind_sigs.dupBufs k p bufs

@[simp] theorem sigs_mmapFreeBufs : (k.mmapFreeBufs p).sigs = k.sigs := blind_sigs.mmapFreeBufs k p

@[simp] theorem sigs_foldl_dropVma (l : List (Fin procMaxVmas)) :
    (l.foldl (dropVma p) k).sigs = k.sigs := blind_sigs.foldl_dropVma k p l

@[simp] theorem sigs_wakeWaiters : (k.wakeWaiters p).sigs = k.sigs := by
  simp only [wakeWaiters]
  split
  · rfl
  split
  · rfl
  · split <;> simp

@[simp] theorem sigs_closeProcFds : (k.closeProcFds p).sigs = k.sigs :=
  k.sigs_modify p (fun t => {t with ufdInuse := fun _ => false}) fun _ => rfl

@[simp] theorem sigs_exit (code : BitVec 32) (close : Bool) :
    (k.exit p code close).sigs = k.sigs := by
  cases close <;> simp [exit]

@[simp] theorem sigs_stop (s : Fin nsig) : (k.stop p s).sigs = k.sigs := by
  simp [stop]

theorem sigs_repoint (pid : BitVec 32) : (k.repoint p pid).sigs = k.sigs := by
  funext q
  simp only [sigs, repoint]
  split <;> rfl

@[simp] theorem sigs_tgReassignLeader : (k.tgReassignLeader p).sigs = k.sigs := by
  simp only [tgReassignLeader]
  split
  · rfl
  case h_2 heir _ =>
    have hinherit := k.sigs_modify heir (inherit (k.procs p)) fun _ => rfl
    have hleft := (k.modify heir (inherit (k.procs p))).sigs_modify p relinquish fun _ => rfl
    rw [sigs_modify, sigs_repoint, hleft, hinherit]
    exact fun _ => rfl

@[simp] theorem sigs_releaseSpace : (k.releaseSpace p).sigs = k.sigs := by
  simp only [releaseSpace]
  split <;> simp

@[simp] theorem sigs_tearDown : (k.tearDown p).sigs = k.sigs := by
  simp only [tearDown, sigs_releaseSpace, sigs_mmapFreeBufs, sigs_tgReassignLeader]

@[simp] theorem sigs_reapEntry : (k.reapEntry p i).sigs = k.sigs := by
  simp only [reapEntry, sigs_kfree, sigs_removeEntry, sigs_patchIndex, sigs_tearDown,
    sigs_closeProcFds]

@[simp] theorem sigs_reapUserProcess : (k.reapUserProcess p).sigs = k.sigs := by
  simp only [reapUserProcess, sigs_kfree, sigs_tearDown]
  split <;> simp

theorem sigs_reapFrom (turns : Nat) :
    ∀ (k : Kernel) (i : Nat), (k.reapFrom turns i).sigs = k.sigs := by
  induction turns with
  | zero => exact fun _ _ => rfl
  | succ turns ih =>
    intro k i
    simp only [reapFrom]
    split
    · rfl
    split
    · rw [ih, sigs_reapEntry]
    · exact ih k (i + 1)

theorem sigs_destroyProcess (pid : BitVec 64) : (k.destroyProcess pid).sigs = k.sigs := by
  simp only [destroyProcess]
  split
  · rfl
  · split <;> simp

theorem sigs_doWaitpid (wpid options : BitVec 32) :
    (k.doWaitpid p wpid options).1.sigs = k.sigs := by
  simp only [doWaitpid]
  split
  · rfl
  split
  · simp
  split
  · simp
  · split <;> simp

theorem sigs_kwait (pid : BitVec 32) : (k.kwait p pid).1.sigs = k.sigs := by
  simp only [kwait]
  split
  · rfl
  · split <;> simp

end

/-! ### New tasks -/

section
variable {k k' : Kernel} {new : SigState}

theorem fills_none (hs : k'.sigs = k.sigs) (ht : k'.table = k.table) : Fills k k' new :=
  .inl ⟨hs, ht⟩

/-- Work that neither signal states nor the table show, after the record was filled in. -/
theorem Fills.then {k'' : Kernel} (h : Fills k k' new) (hs : k''.sigs = k'.sigs)
    (ht : k''.table = k'.table) : Fills k k'' new := by
  rcases h with ⟨hsigs, htable⟩ | ⟨p, h⟩
  · exact .inl ⟨hs.trans hsigs, ht.trans htable⟩
  · exact .inr ⟨p, h.nonnull, h.free, hs.trans h.sigs, ht ▸ h.table⟩

/-- Such work before it, off the heap. -/
theorem Fills.after {k₀ : Kernel} (h : Fills k k' new) (hs : k.sigs = k₀.sigs)
    (ht : k.table = k₀.table) (hh : k.heap = k₀.heap) : Fills k₀ k' new := by
  rcases h with ⟨hsigs, htable⟩ | ⟨p, h⟩
  · exact .inl ⟨hsigs.trans hs, htable.trans ht⟩
  · exact .inr ⟨p, h.nonnull, hh ▸ h.free, hs ▸ h.sigs, ht ▸ h.table⟩

variable {block : Nat} {fill : BitVec 32 → Proc}

theorem newTask_null (hp : (k.newTask block fill).2 = 0) :
    (k.newTask block fill).1.sigs = k.sigs := by
  simp only [newTask] at hp ⊢
  split at hp
  case isTrue hnull =>
    rw [if_pos hnull]
    exact k.sigs_kmalloc block
  case isFalse hnull => exact absurd hp hnull

theorem kmalloc_free (hp : (k.kmalloc block).2 ≠ 0) : k.heap (k.kmalloc block).2 = false := by
  simp only [kmalloc] at hp ⊢
  split at hp
  · exact absurd rfl hp
  case isFalse hfree =>
    rw [if_neg hfree]
    exact Bool.eq_false_iff.mpr fun hb => hfree (.inr hb)

/-- The record that was filled in, after more work that signal states do not show. -/
theorem begun_newTask (hfill : ∀ pid, (fill pid).sig = new) (hp : (k.newTask block fill).2 ≠ 0)
    (hs : k'.sigs = (k.newTask block fill).1.sigs)
    (ht : k'.table = k.table ∨ k'.table = k.table ++ [(k.newTask block fill).2]) :
    Begun k k' (k.newTask block fill).2 new := by
  rw [newTask] at hp hs ht ⊢
  dsimp only at hp hs ht ⊢
  split at hp
  · exact absurd rfl hp
  case isFalse hnull =>
    rw [if_neg hnull] at hs ht ⊢
    refine ⟨hnull, kmalloc_free hnull, hs.trans ?_, ht⟩
    rw [sigs_modify_update, hfill]
    exact congrArg (update · _ _) (k.sigs_kmalloc block)

end

section
variable (k : Kernel)

@[simp] theorem initTaskStack_table (p stack : Nat) (frame : Frame) :
    (k.initTaskStack p stack frame).1.table = k.table :=
  congrArg Cores.table (k.cores_initTaskStack p stack frame)

@[simp] theorem append_table (p : Nat) : (k.append p).table = k.table ++ [p] := rfl

@[simp] theorem build_table (rip : BitVec 64) : (k.build rip).table = k.table := rfl

@[simp] theorem increfPipes_table (t : Proc) : (k.increfPipes t).table = k.table := rfl

theorem fills_initProcess (block : Nat) : Fills k (k.initProcess block) .zero := by
  simp only [initProcess]
  split
  case isTrue hp => exact fills_none (newTask_null hp) (by simp)
  case isFalse hp => exact .inr ⟨_, begun_newTask (fun _ => rfl) hp rfl (.inr (by simp))⟩

theorem fills_createProcess (entry : Bool) (block stack : Nat) :
    Fills k (k.createProcess entry block stack).1 .zero := by
  simp only [createProcess]
  split
  · exact fills_none rfl rfl
  split
  case isTrue hp => exact fills_none (newTask_null hp) (by simp)
  case isFalse hp =>
    split
    · split
      · exact .inr ⟨_, begun_newTask (fun _ => rfl) hp (by simp) (.inr (by simp))⟩
      · exact .inr ⟨_, begun_newTask (fun _ => rfl) hp (by simp) (.inl (by simp))⟩
    · exact .inr ⟨_, begun_newTask (fun _ => rfl) hp rfl (.inr (by simp))⟩

theorem fills_createUserProcess (entry rsp : BitVec 64) (dir block stack : Nat) :
    Fills k (k.createUserProcess entry rsp dir block stack).1 .zero := by
  simp only [createUserProcess]
  split
  · exact fills_none rfl rfl
  split
  case isTrue hp => exact fills_none (newTask_null hp) (by simp)
  case isFalse hp =>
    split
    · exact .inr ⟨_, begun_newTask (fun _ => rfl) hp (by simp) (.inr (by simp))⟩
    · exact .inr ⟨_, begun_newTask (fun _ => rfl) hp (by simp) (.inl (by simp))⟩

theorem elfLoadImage_heap (load : Load) : (k.elfLoadImage load).1.heap = k.heap :=
  congrArg Blocks.heap (k.blocks_elfLoadImage load)

theorem fills_elfLoadArgs (load : Load) (rsp : BitVec 64) (block stack : Nat) :
    Fills k (k.elfLoadArgs load rsp block stack).1 .zero := by
  have hsigs := k.sigs_elfLoadImage load
  have htable := (k.elfLoadImage_same load).1
  have hheap := k.elfLoadImage_heap load
  simp only [elfLoadArgs]
  split
  case h_1 k' he =>
    rw [he] at hsigs htable
    exact fills_none hsigs htable
  case h_2 k' dir entry brk he =>
    rw [he] at hsigs htable hheap
    have hmade := (k'.fills_createUserProcess entry rsp dir block stack).after hsigs htable hheap
    split
    case h_1 k'' hc =>
      rw [hc] at hmade
      exact hmade.then (by simp) (by simp)
    case h_2 k'' p hc =>
      rw [hc] at hmade
      exact hmade.then (by simp) rfl

theorem fills_spawnUserPathArgs (parent : Option Nat) (load : Load) (rsp : BitVec 64)
    (block stack : Nat) :
    Fills k (k.spawnUserPathArgs parent load rsp block stack).1 .zero := by
  have hloaded := k.fills_elfLoadArgs load rsp block stack
  simp only [spawnUserPathArgs]
  split
  · exact hloaded
  · exact hloaded.then (by simp) rfl

theorem fills_doFork (self dirChoice block stack : Nat) (bufs : Fin procMaxVmas → Nat) :
    Fills k (k.doFork self dirChoice block stack bufs).1 (k.sigs self).handed := by
  have hheap : (k.allocPageDirectory dirChoice).1.heap = k.heap := by
    simp only [allocPageDirectory]
    split <;> rfl
  simp only [doFork]
  split
  · exact fills_none rfl rfl
  split
  · exact fills_none (by simp) (by simp)
  refine Fills.after ?_ (k.sigs_allocPageDirectory dirChoice) (by simp) hheap
  generalize hk : (k.allocPageDirectory dirChoice).1 = k₁
  split
  case isTrue hp => exact fills_none ((sigs_freePageDirectory ..).trans (newTask_null hp)) (by simp)
  case isFalse hp =>
    split
    · refine .inr ⟨_, begun_newTask (fun _ => rfl) hp (by simp) (.inr ?_)⟩
      simp [dupBufs_table]
    refine .inr ⟨_, begun_newTask (fun _ => rfl) hp (by simp) (.inl ?_)⟩
    simp [dupBufs_table]

theorem fills_doClone (self : Nat) (fn stack arg flags : BitVec 64) (block kstack : Nat) :
    Fills k (k.doClone self fn stack arg flags block kstack).1 (k.sigs self).handed := by
  simp only [doClone]
  split
  · exact fills_none rfl rfl
  split
  case isTrue hp => exact fills_none (newTask_null hp) (by simp)
  case isFalse hp =>
    split
    · exact .inr ⟨_, begun_newTask (fun _ => rfl) hp (by simp) (.inr (by simp))⟩
    · exact .inr ⟨_, begun_newTask (fun _ => rfl) hp (by simp) (.inl (by simp))⟩

end

/-! ### Acts on one task -/

section
variable {k k' : Kernel} {p : Nat} {acts : List SigAct}

theorem acted_none (h : k'.sigs = k.sigs) : Acted k k' p [] := by
  rw [Acted, h]
  exact (update_eq_self ..).symm

theorem Acted.then {k'' : Kernel} (h : Acted k k' p acts) (hs : k''.sigs = k'.sigs) :
    Acted k k'' p acts := hs.trans h

theorem Acted.modify (h : Acted k k' p acts) (a : SigAct) {f : Proc → Proc}
    (hf : (f (k'.procs p)).sig = SigAct.apply (k'.sigs p) a) :
    Acted k (k'.modify p f) p (acts ++ [a]) := by
  rw [Acted, sigs_modify_update, hf, h, update_idem, update_self, run_append]
  rfl

theorem acted_modify (k : Kernel) (p : Nat) (a : SigAct) {f : Proc → Proc}
    (hf : (f (k.procs p)).sig = SigAct.apply (k.sigs p) a) : Acted k (k.modify p f) p [a] :=
  (acted_none rfl).modify a hf

theorem Acted.divert (h : Acted k k' p acts) (s : Fin nsig) (disp : BitVec 64) :
    Acted k (k'.modify p (divert · s disp)) p (acts ++ [.enter s (k'.procs p).frame]) :=
  h.modify _ rfl

theorem Acted.save (h : Acted k k' p acts) :
    Acted k (k'.modify p fun t => {t with sigSaved := t.frame}) p
      (acts ++ [.save (k'.procs p).frame]) := h.modify _ rfl

variable {asked : SigAct → Prop}

theorem acts_none (h : k'.sigs = k.sigs) : Acts k k' asked p :=
  ⟨[], fun _ ha => (nomatch ha), trivial, acted_none h⟩

theorem acts_one {a : SigAct} (ha : asked a) (hok : a.Allowed (k.sigs p))
    (h : Acted k k' p [a]) : Acts k k' asked p := by
  refine ⟨[a], ?_, ⟨hok, trivial⟩, h⟩
  intro b hb
  rw [List.mem_singleton.mp hb]
  exact ha

theorem Acts.mono {asked' : SigAct → Prop} (h : Acts k k' asked p)
    (hle : ∀ a, asked a → asked' a) : Acts k k' asked' p := by
  obtain ⟨acts, hasked, hok, hacted⟩ := h
  exact ⟨acts, fun a ha => hle a (hasked a ha), hok, hacted⟩

theorem Acts.then {k'' : Kernel} (h : Acts k k' asked p) (hs : k''.sigs = k'.sigs) :
    Acts k k'' asked p := by
  obtain ⟨acts, hasked, hok, hacted⟩ := h
  exact ⟨acts, hasked, hok, hacted.then hs⟩

end

/-! ### The signal calls -/

section
variable (k : Kernel) (p : Nat)

variable (sig : BitVec 32) (writable : Bool)

theorem acts_signalRaise : Acts k (k.signalRaise p sig) (fun a => ∃ s, a = .raise s) p := by
  simp only [signalRaise]
  split
  · exact acts_none rfl
  case h_2 s _ =>
    generalize hk : (if s = sigcont ∧ (k.procs p).state = .stopped then _ else k) = k₁
    have hsame : k₁.sigs = k.sigs := by
      rw [← hk]
      split <;> simp
    have hraised := (acted_none (p := p) hsame).modify (.raise s)
      (f := fun t => {t with sigPending := t.sigPending ||| sigBit s}) rfl
    refine acts_one ⟨s, rfl⟩ trivial (hraised.then ?_)
    split <;> simp

/-- The task a signal was sent to, if any, gets it. -/
theorem acts_doKill (pid sig : BitVec 32) :
    ∃ p, Acts k (k.doKill pid sig).1 (fun a => ∃ s, a = .raise s) p := by
  simp only [doKill]
  split
  · exact ⟨0, acts_none rfl⟩
  split
  · exact ⟨0, acts_none rfl⟩
  case h_2 target _ => exact ⟨target, k.acts_signalRaise target sig⟩

theorem acts_doSignal (handler trampoline : BitVec 64) :
    Acts k (k.doSignal p sig handler trampoline).1
      (fun a => ∃ s, a = .install s handler trampoline) p := by
  simp only [doSignal]
  split
  · exact acts_none rfl
  case h_2 s _ =>
    split
    · exact acts_none rfl
    case isFalse hs =>
      dsimp only
      exact acts_one ⟨s, rfl⟩ (Bool.eq_false_iff.mpr hs) (acted_modify k p _ rfl)

theorem acts_doSigreturn : Acts k (k.doSigreturn p) (· = .sigreturn) p := by
  simp only [doSigreturn]
  split
  · exact acts_none rfl
  · exact acts_one rfl trivial (acted_modify k p _ rfl)

theorem acts_doSigprocmask (how set : BitVec 32) (writable : Bool) :
    Acts k (k.doSigprocmask p how set writable).1
      (fun a => writable = true ∧ a = .remask how set) p := by
  simp only [doSigprocmask]
  split
  case isTrue hw =>
    dsimp only
    exact acts_one ⟨hw, rfl⟩ trivial (acted_modify k p _ rfl)
  case isFalse => exact acts_none rfl

theorem acts_resumed : Acts k (k.resumed p) (· = .consume sigcont) p :=
  acts_one rfl trivial (acted_modify k p _ rfl)

theorem acts_doExecve (load : Load) (argc sp : BitVec 64) : Acts k (k.doExecve p load argc sp).1
      (fun a => (k.doExecve p load argc sp).2 = 0#32 ∧ a = .reimage) p := by
  have hsame := k.sigs_elfLoadImage load
  simp only [doExecve]
  split
  · exact acts_none rfl
  split
  case h_1 k' he =>
    rw [he] at hsame
    exact acts_none hsame
  case h_2 k' dir entry brk he =>
    rw [he] at hsame
    refine acts_one ⟨rfl, rfl⟩ trivial (((acted_none hsame).modify .reimage
      (f := (reimagedProc · dir brk)) rfl).then ?_)
    split <;> simp

/-- What `signal_dispatch` may do to the caller. -/
theorem acts_deliver (s : Fin nsig) (writable : Bool) {disp : BitVec 64}
    (hs : disp ≠ sigDfl → uncatchable s = false) :
    Acts k (k.deliver p s disp writable) (fun a => (∃ s, a = .consume s) ∨
      (∃ s, a = .enter s (k.procs p).frame) ∨ a = .save (k.procs p).frame) p := by
  have hconsumed : Acted k (k.modify p (clearPending s)) p [.consume s] := acted_modify k p _ rfl
  have hframe : ((k.modify p (clearPending s)).procs p).frame = (k.procs p).frame := by
    rw [modify_procs_self]
    rfl
  simp only [deliver]
  split
  · exact acts_one (.inl ⟨s, rfl⟩) trivial hconsumed
  split
  · refine acts_one (.inl ⟨s, rfl⟩) trivial (hconsumed.then ?_)
    split
    · rfl
    · split <;> simp
  case isFalse hdfl =>
    split
    · exact acts_none rfl
    case isFalse hactive =>
      have hidle : (k.sigs p).active = 0#32 := not_not.mp hactive
      have hentered := hconsumed.divert s disp
      have hsaved := hconsumed.save
      rw [hframe] at hentered hsaved
      split
      · exact ⟨[.consume s, .enter s (k.procs p).frame], by simp,
          ⟨trivial, ⟨hs hdfl, hidle⟩, trivial⟩, hentered.then rfl⟩
      exact ⟨[.consume s, .save (k.procs p).frame], by simp, ⟨trivial, hidle, trivial⟩,
        hsaved.then (by simp)⟩

theorem acts_signalDispatch : Acts k (k.signalDispatch p writable) (fun a => (∃ s, a = .consume s) ∨
      (∃ s, a = .enter s (k.procs p).frame) ∨ a = .save (k.procs p).frame) p := by
  simp only [signalDispatch]
  split
  · exact acts_none rfl
  split
  · exact acts_none rfl
  apply acts_deliver
  split
  · exact fun h => absurd rfl h
  case isFalse hs => exact fun _ => Bool.eq_false_iff.mpr hs

theorem acts_signalDeliverFault : Acts k (k.signalDeliverFault p sig writable).1
      (fun a => (∃ s, a = .enter s (k.procs p).frame) ∨ a = .save (k.procs p).frame) p := by
  simp only [signalDeliverFault]
  split
  · exact acts_none rfl
  split
  · exact acts_none rfl
  case h_2 s _ =>
    split
    · exact acts_none rfl
    case isFalse hc =>
      simp only [not_or, Bool.not_eq_true, not_not] at hc
      split
      · exact acts_one (.inr rfl) hc.2.2.2 (acted_none rfl).save
      · exact acts_one (.inl ⟨s, rfl⟩) ⟨hc.1, hc.2.2.2⟩ (((acted_none rfl).divert s _).then rfl)

theorem acts_userFault : Acts k (k.userFault p sig writable)
      (fun a => (∃ s, a = .enter s (k.procs p).frame) ∨ a = .save (k.procs p).frame) p := by
  have h := k.acts_signalDeliverFault p sig writable
  simp only [userFault]
  split
  case h_1 k' he =>
    rw [he] at h
    exact h
  case h_2 k' he =>
    rw [he] at h
    exact h.then (sigs_exit ..)

end
end Kernel

/-! ### Every entry -/

def Kernel.Hands (k : Kernel) : Op → SigState → Prop
  | .createProcess .., new | .load .., new | .spawn .., new => new = .zero
  | .fork self .., new | .clone self .., new => new = (k.sigs self).handed
  | _, _ => False

/-- What an entry into the kernel does to signal states: acts on its caller or on the task a
signal is sent to, or the record of a new task. -/
theorem moves_perform (k : Kernel) (op : Op) : (∃ p, Kernel.Acts k (perform k op) (k.Asks p op) p) ∨
      ∃ new, k.Hands op new ∧ Kernel.Fills k (perform k op) new := by
  cases op with
  | createProcess entry block stack =>
    exact .inr ⟨_, rfl, k.fills_createProcess entry block stack⟩
  | load image rsp block stack => exact .inr ⟨_, rfl, k.fills_elfLoadArgs image rsp block stack⟩
  | spawn parent image rsp block stack =>
    exact .inr ⟨_, rfl, k.fills_spawnUserPathArgs parent image rsp block stack⟩
  | fork self dir block stack bufs =>
    exact .inr ⟨_, rfl, k.fills_doFork self dir block stack bufs⟩
  | clone self fn stack arg flags block kstack =>
    exact .inr ⟨_, rfl, k.fills_doClone self fn stack arg flags block kstack⟩
  | execve self => exact .inl ⟨self, (k.acts_doExecve ..).mono fun _ ha => ⟨rfl, ha⟩⟩
  | exit self code => exact .inl ⟨0, acts_none (k.sigs_exit self code true)⟩
  | waitpid => exact .inl ⟨0, acts_none (k.sigs_doWaitpid ..)⟩
  | kwait => exact .inl ⟨0, acts_none (k.sigs_kwait ..)⟩
  | reapZombies => exact .inl ⟨0, acts_none (sigs_reapFrom _ k 0)⟩
  | destroyProcess pid => exact .inl ⟨0, acts_none (k.sigs_destroyProcess pid)⟩
  | mmap => exact .inl ⟨0, acts_none (blind_sigs.doMmap ..)⟩
  | mprotect => exact .inl ⟨0, acts_none (blind_sigs.doMprotect ..)⟩
  | munmap => exact .inl ⟨0, acts_none (blind_sigs.doMunmap ..)⟩
  | signal self => exact .inl ⟨self, (k.acts_doSignal ..).mono fun _ ha => ⟨rfl, ha⟩⟩
  | kill => exact .inl (k.acts_doKill ..)
  | dispatch self => exact .inl ⟨self, (k.acts_signalDispatch ..).mono fun _ ha => ⟨rfl, ha⟩⟩
  | resumed self => exact .inl ⟨self, (k.acts_resumed self).mono fun _ ha => ⟨rfl, ha⟩⟩
  | userFault self => exact .inl ⟨self, (k.acts_userFault ..).mono fun _ ha => ⟨rfl, ha⟩⟩
  | sigreturn self => exact .inl ⟨self, (k.acts_doSigreturn self).mono fun _ ha => ⟨rfl, ha⟩⟩
  | sigprocmask self => exact .inl ⟨self, (k.acts_doSigprocmask ..).mono fun _ ha => ⟨rfl, ha⟩⟩
  | trap self frame => exact .inl ⟨self, acts_none (by simp [perform])⟩

/-- A task of the table goes through the acts it was asked to, and nothing else happens to
its signal state. -/
theorem acts_step {k : Kernel} (hk : k.blocks.Owned) {p : Nat} (hp : p ∈ k.table) (op : Op) :
    ∃ acts, (∀ a ∈ acts, k.Asks p op a) ∧ Admissible SigAct.apply SigAct.Allowed (k.sigs p) acts ∧
      (step k op).sigs p = run SigAct.apply (k.sigs p) acts := by
  have hnone : ∀ a ∈ ([] : List SigAct), k.Asks p op a := fun _ ha => nomatch ha
  rw [step]
  split
  case isFalse => exact ⟨[], hnone, trivial, rfl⟩
  case isTrue =>
    rcases moves_perform k op with ⟨q, acts, hasked, hok, hacted⟩ | ⟨new, _, ⟨hs, _⟩ | ⟨q, hbegun⟩⟩
    · by_cases hq : p = q
      · subst hq
        exact ⟨acts, hasked, hok, by rw [hacted, update_self]⟩
      · exact ⟨[], hnone, trivial, by rw [hacted, update_of_ne hq]; rfl⟩
    · exact ⟨[], hnone, trivial, congrFun hs p⟩
    · have hq : p ≠ q := by
        rintro rfl
        exact absurd (heap_of_mem hk hp) (by rw [hbegun.free]; exact nofun)
      exact ⟨[], hnone, trivial, by rw [hbegun.sigs, update_of_ne hq]; rfl⟩

end Nyx.Process
