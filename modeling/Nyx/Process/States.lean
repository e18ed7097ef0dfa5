import Nyx.Process.Births
import Nyx.Process.Reaping

/-! How the run state of a task can change.

Whatever enters the kernel, a task keeps its state, is made runnable, or is put into a state
that the entry says it may be put into (`Kernel.may`): the caller of `exit` becomes a zombie,
the caller of `waitpid` blocks, and so on. Nobody else is ever blocked, stopped or ended. -/
namespace Nyx.Process
open Nyx.Lib
namespace Kernel

/-- Every task keeps its state, runs, or is in a state it may be put into. -/
def Lets (may : Nat → PState → Prop) (k k' : Kernel) : Prop :=
  ∀ q, (k'.procs q).state = (k.procs q).state ∨ (k'.procs q).state = .run ∨ may q (k'.procs q).state

theorem Lets.kept {may : Nat → PState → Prop} {k k' : Kernel} (h : Lets may k k') {q : Nat}
    {st : PState} (hs : (k'.procs q).state = st) (hrun : st ≠ .run) (hq : ¬ may q st) :
    (k.procs q).state = st := by
  have hlets := h q
  rw [hs] at hlets
  rcases hlets with he | he | hmay
  · exact he.symm
  · exact absurd he hrun
  · exact absurd hmay hq

/-- The states that an entry into the kernel can put a task into. -/
def may (k : Kernel) (q : Nat) (st : PState) : Op → Prop
  | .exit self _ | .userFault self .. => q = self ∧ st = .zombie
  | .dispatch self _ => q = self ∧ (st = .zombie ∨ st = .stopped)
  | .waitpid self .. | .kwait self _ => q = self ∧ st = .blocked
  | .destroyProcess pid => (k.procs q).pid.setWidth 64 = pid ∧ st = .zombie
  | _ => False

section
variable {may : Nat → PState → Prop} {k k' k'' : Kernel}

theorem Lets.trans (h : Lets may k k') (h' : Lets may k' k'') : Lets may k k'' := by
  intro q
  rcases h' q with he | hrun | hmay
  · rw [he]
    exact h q
  · exact .inr (.inl hrun)
  · exact .inr (.inr hmay)

theorem lets_of_state (h : ∀ q, (k'.procs q).state = (k.procs q).state) : Lets may k k' :=
  fun q => .inl (h q)

theorem lets_refl (k : Kernel) : Lets may k k := lets_of_state fun _ => rfl

theorem lets_of_cores (h : k'.cores = k.cores) : Lets may k k' :=
  lets_of_state fun q => congrArg Core.state (core_of_cores h q)

theorem lets_modify (k : Kernel) (p : Nat) {f : Proc → Proc}
    (hf : (f (k.procs p)).state = (k.procs p).state ∨ (f (k.procs p)).state = .run ∨
      may p (f (k.procs p)).state) : Lets may k (k.modify p f) := by
  intro q
  rcases eq_or_ne q p with rfl | hne
  · rw [modify_procs_self]
    exact hf
  rw [modify_procs_ne _ _ _ hne]
  exact .inl rfl

theorem lets_wakeWaiters (k : Kernel) (child : Nat) : Lets may k (k.wakeWaiters child) := by
  simp only [wakeWaiters]
  split
  · exact lets_refl k
  split
  · exact lets_refl k
  split
  · exact lets_modify k _ (by simp)
  · exact lets_refl k

theorem lets_closeProcFds (k : Kernel) (p : Nat) : Lets may k (k.closeProcFds p) :=
  lets_modify k p (f := fun t => {t with ufdInuse := fun _ => false}) (.inl rfl)

variable {p : Nat}

theorem lets_exit (k : Kernel) (hmay : may p .zombie) (code : BitVec 32) (close : Bool) :
    Lets may k (k.exit p code close) := by
  have hcode : Lets may k (k.modify p fun t => {t with exitCode := code}) :=
    lets_modify k p (by simp)
  simp only [exit]
  refine Lets.trans ?_ (lets_wakeWaiters _ p)
  refine Lets.trans ?_ (lets_modify _ p (.inr (.inr hmay)))
  cases close with
  | false => exact hcode
  | true => exact hcode.trans (lets_closeProcFds _ p)

theorem lets_stop (k : Kernel) (hmay : may p .stopped) (s : Fin nsig) :
    Lets may k (k.stop p s) := by
  simp only [stop]
  refine Lets.trans ?_ (lets_wakeWaiters _ p)
  exact lets_modify k p (.inr (.inr hmay))

/-! ### Signals -/

theorem lets_signalRaise (k : Kernel) (p : Nat) (sig : BitVec 32) :
    Lets may k (k.signalRaise p sig) := by
  simp only [signalRaise]
  split
  · exact lets_refl k
  case h_2 s _ =>
    generalize hk : (if s = sigcont ∧ (k.procs p).state = .stopped then _ else k) = k₁
    have hwoken : Lets may k k₁ := by
      rw [← hk]
      split
      · exact lets_modify k p (by simp)
      · exact lets_refl k
    have hraised : Lets may k₁
        (k₁.modify p fun t => {t with sigPending := t.sigPending ||| sigBit s}) :=
      lets_modify k₁ p (by simp)
    refine (hwoken.trans hraised).trans ?_
    split
    · exact lets_modify _ p (by simp)
    · exact lets_refl _

theorem lets_doKill (k : Kernel) (pid sig : BitVec 32) : Lets may k (k.doKill pid sig).1 := by
  simp only [doKill]
  split
  · exact lets_refl k
  split
  · exact lets_refl k
  · exact lets_signalRaise k _ sig

theorem lets_deliver (k : Kernel) (hzombie : may p .zombie) (hstopped : may p .stopped)
    (s : Fin nsig) (disp : BitVec 64) (writable : Bool) :
    Lets may k (k.deliver p s disp writable) := by
  have hconsumed : Lets may k (k.modify p (clearPending s)) :=
    lets_of_cores (k.cores_clearPending p s)
  simp only [deliver]
  split
  · exact hconsumed
  split
  · split
    · exact hconsumed
    · split
      · exact hconsumed.trans (lets_stop _ hstopped s)
      · exact hconsumed.trans (lets_exit _ hzombie _ false)
  · split
    · exact lets_refl k
    split
    · exact hconsumed.trans (lets_of_cores ((cores_build ..).trans (cores_divert _ p s disp)))
    · exact (hconsumed.trans (lets_of_cores (cores_sigSaved _ p))).trans
        (lets_exit _ hzombie _ false)

theorem lets_signalDispatch (k : Kernel) (hzombie : may p .zombie) (hstopped : may p .stopped)
    (writable : Bool) : Lets may k (k.signalDispatch p writable) := by
  simp only [signalDispatch]
  split
  · exact lets_refl k
  split
  · exact lets_refl k
  · exact lets_deliver k hzombie hstopped _ _ writable

theorem lets_userFault (k : Kernel) (hzombie : may p .zombie) (sig : BitVec 32) (writable : Bool) :
    Lets may k (k.userFault p sig writable) := by
  have hsame := k.cores_signalDeliverFault p sig writable
  simp only [userFault]
  split
  case h_1 k' he =>
    rw [he] at hsame
    exact lets_of_cores hsame
  case h_2 k' he =>
    rw [he] at hsame
    exact (lets_of_cores hsame).trans (lets_exit k' hzombie _ true)

/-! ### Removals -/

theorem tgReassignLeader_state (k : Kernel) (p q : Nat) :
    ((k.tgReassignLeader p).procs q).state = (k.procs q).state :=
  k.tgReassignLeader_field p Proc.state (fun _ _ => rfl) (fun _ => rfl) (fun _ _ => rfl) q

theorem lets_reapEntry (k : Kernel) (p i : Nat) : Lets may k (k.reapEntry p i) := by
  refine (lets_closeProcFds k p).trans (lets_of_state fun q => ?_)
  have hcore : ((k.reapEntry p i).procs q).core =
      (((k.closeProcFds p).tgReassignLeader p).procs q).core :=
    congrFun (congrArg Cores.core (k.cores_reapEntry p i)) q
  exact (congrArg Core.state hcore).trans (tgReassignLeader_state _ p q)

theorem lets_reapFrom (turns : Nat) :
    ∀ (k : Kernel) (i : Nat), Lets may k (k.reapFrom turns i) := by
  induction turns with
  | zero => exact fun k _ => lets_refl k
  | succ turns ih =>
    intro k i
    simp only [reapFrom]
    split
    · exact lets_refl k
    split
    · exact (lets_reapEntry k _ i).trans (ih _ i)
    · exact ih k (i + 1)

theorem reapUserProcess_state (k : Kernel) (hp : p ∈ k.table) (q : Nat) :
    ((k.reapUserProcess p).procs q).state = (k.procs q).state := by
  have hcore := core_of_cores (cores_reapUserProcess k p hp) q
  refine (congrArg Core.state hcore).trans ((tgReassignLeader_state _ p q).trans ?_)
  exact k.modify_field p (fun t => {t with ufdInuse := fun _ => false}) (·.state) (fun _ => rfl) q

theorem lets_reapUserProcess (hp : p ∈ k.table) : Lets may k (k.reapUserProcess p) :=
  lets_of_state fun q => k.reapUserProcess_state hp q

theorem lets_destroyProcess (k : Kernel) {pid : BitVec 64}
    (hmay : ∀ q, (k.procs q).pid.setWidth 64 = pid → may q .zombie) :
    Lets may k (k.destroyProcess pid) := by
  simp only [destroyProcess]
  split
  · exact lets_refl k
  case h_2 p hp =>
    split
    · have hfound := List.find?_some hp
      rw [Bool.and_eq_true, beq_iff_eq] at hfound
      refine Lets.trans ?_ (lets_wakeWaiters _ p)
      exact lets_modify k p (.inr (.inr (hmay p hfound.2)))
    · exact lets_reapUserProcess (List.mem_of_find?_eq_some hp)

theorem lets_doWaitpid (k : Kernel) (hmay : may p .blocked) (wpid options : BitVec 32) :
    Lets may k (k.doWaitpid p wpid options).1 := by
  simp only [doWaitpid]
  split
  · exact lets_refl k
  split
  · exact lets_reapEntry k _ _
  split
  · dsimp only
    exact lets_modify k _ (by simp)
  split
  · exact lets_refl k
  · dsimp only
    exact lets_modify k p (.inr (.inr hmay))

theorem lets_kwait (k : Kernel) (hmay : may p .blocked) (pid : BitVec 32) :
    Lets may k (k.kwait p pid).1 := by
  simp only [kwait]
  split
  · exact lets_refl k
  split
  · exact lets_refl k
  dsimp only
  exact lets_modify k p (.inr (.inr hmay))

/-! ### New tasks, which run -/

theorem lets_newTask (k : Kernel) (block : Nat) {fill : BitVec 32 → Proc}
    (hfill : ∀ pid, (fill pid).state = .run) : Lets may k (k.newTask block fill).1 := by
  simp only [newTask]
  split
  · exact lets_of_cores (k.cores_kmalloc block)
  refine (lets_of_cores (k.cores_kmalloc block)).trans ?_
  intro q
  simp only [modify, Function.update_apply]
  split
  · exact .inr (.inl (hfill _))
  · exact .inl rfl

theorem lets_managed (k : Kernel) (p : Nat) :
    Lets may k (k.modify p fun t => {t with schedManaged := true}) := lets_modify k p (.inl rfl)

theorem lets_append (k : Kernel) (p : Nat) : Lets may k (k.append p) := lets_of_state fun _ => rfl

theorem lets_createProcess (k : Kernel) (entry : Bool) (block stack : Nat) :
    Lets may k (k.createProcess entry block stack).1 := by
  have hnew : Lets may k (k.newTask block kernelProc).1 := lets_newTask k block fun _ => rfl
  simp only [createProcess]
  split
  · exact lets_refl k
  split
  · exact hnew
  split
  · have hstack := hnew.trans (lets_of_cores (cores_initTaskStack _
      (k.newTask block kernelProc).2 stack .zero))
    split
    · exact hstack
    · exact hstack.trans (lets_of_cores (cores_kfree ..))
  · exact hnew

theorem lets_createUserProcess (k : Kernel) (entry rsp : BitVec 64) (dir block stack : Nat) :
    Lets may k (k.createUserProcess entry rsp dir block stack).1 := by
  have hnew : Lets may k (k.newTask block (userProc dir)).1 := lets_newTask k block fun _ => rfl
  simp only [createUserProcess]
  split
  · exact lets_refl k
  split
  · exact hnew
  have hstack := hnew.trans (lets_of_cores (cores_initTaskStack _
    (k.newTask block (userProc dir)).2 stack (userFrame entry rsp)))
  split
  · exact hstack
  · exact hstack.trans (lets_of_cores (cores_kfree ..))

theorem lets_elfLoadArgs (k : Kernel) (load : Load) (rsp : BitVec 64) (block stack : Nat) :
    Lets may k (k.elfLoadArgs load rsp block stack).1 := by
  have himage : Lets may k (k.elfLoadImage load).1 := lets_of_cores (k.cores_elfLoadImage load)
  simp only [elfLoadArgs]
  split
  case h_1 k' he =>
    rw [he] at himage
    exact himage
  case h_2 k' dir entry brk he =>
    rw [he] at himage
    have hmade := himage.trans (lets_createUserProcess k' entry rsp dir block stack)
    split
    case h_1 k'' hc =>
      rw [hc] at hmade
      exact hmade.trans (lets_of_cores (cores_freePageDirectory ..))
    case h_2 k'' p hc =>
      rw [hc] at hmade
      refine hmade.trans ?_
      dsimp only
      apply lets_modify
      exact .inl rfl

theorem lets_spawnUserPathArgs (k : Kernel) (parent : Option Nat) (load : Load)
    (rsp : BitVec 64) (block stack : Nat) :
    Lets may k (k.spawnUserPathArgs parent load rsp block stack).1 := by
  have hloaded : Lets may k (k.elfLoadArgs load rsp block stack).1 :=
    k.lets_elfLoadArgs load rsp block stack
  simp only [spawnUserPathArgs]
  split
  · exact hloaded
  refine hloaded.trans ?_
  dsimp only
  apply lets_modify
  exact .inl rfl

theorem lets_doFork (k : Kernel) (self dirChoice block stack : Nat) (bufs : Fin procMaxVmas → Nat) :
    Lets may k (k.doFork self dirChoice block stack bufs).1 := by
  have halloc : Lets may k (k.allocPageDirectory dirChoice).1 :=
    lets_of_cores (k.cores_allocPageDirectory dirChoice)
  simp only [doFork]
  split
  · exact lets_refl k
  split
  · exact halloc
  have hnew : Lets may k ((k.allocPageDirectory dirChoice).1.newTask block
      (forkedProc (k.procs self) (k.allocPageDirectory dirChoice).2)).1 :=
    halloc.trans (lets_newTask _ block fun _ => rfl)
  generalize newTask _ block _ = made at hnew ⊢
  split
  · exact hnew.trans (lets_of_cores (cores_freePageDirectory ..))
  have hbufs := hnew.trans (lets_of_cores (cores_dupBufs made.1 made.2 bufs))
  have hshared : Lets may k ((made.1.dupBufs made.2 bufs).increfPipes (k.procs self)) := hbufs
  have hstack := hshared.trans (lets_of_cores (cores_initTaskStack _ made.2 stack
    (forkedFrame (k.procs self).frame)))
  split
  · exact ((hstack.trans (lets_managed _ self)).trans (lets_managed _ made.2)).trans
      (lets_append _ _)
  · exact hstack.trans (lets_of_cores ((cores_kfree ..).trans (cores_freePageDirectory ..)))

theorem lets_doClone (k : Kernel) (self : Nat) (fn stack arg flags : BitVec 64)
    (block kstack : Nat) : Lets may k (k.doClone self fn stack arg flags block kstack).1 := by
  simp only [doClone]
  split
  · exact lets_refl k
  have hnew : Lets may k (k.newTask block (clonedProc (k.procs self)
    (k.procs (k.tgLeader self)).pid)).1 := lets_newTask k block fun _ => rfl
  generalize newTask _ block _ = made at hnew ⊢
  split
  · exact hnew
  have hstack := hnew.trans (lets_of_cores (cores_initTaskStack _ made.2 kstack
    (threadFrame fn stack arg)))
  split
  · exact (((hstack.trans (lets_of_cores (cores_build _ fn))).trans
      (lets_managed _ self)).trans (lets_managed _ made.2)).trans (lets_append _ _)
  · exact hstack.trans (lets_of_cores (cores_kfree ..))

theorem lets_doExecve (k : Kernel) (self : Nat) (load : Load) (argc sp : BitVec 64) :
    Lets may k (k.doExecve self load argc sp).1 := by
  rcases k.doExecve_outcome self load argc sp with h | ⟨_, dir, h⟩
  · exact lets_of_cores h
  refine lets_of_state fun q => ?_
  have hcore : ((k.doExecve self load argc sp).1.procs q).core =
      Function.update k.cores.core self {k.cores.core self with pageDirectory := dir} q :=
    congrFun (congrArg Cores.core h) q
  refine (congrArg Core.state hcore).trans ?_
  rw [Function.update_apply]
  split
  case isTrue he => exact he ▸ rfl
  case isFalse => rfl

end

theorem lets_perform (k : Kernel) (op : Op) :
    Lets (fun q st => k.may q st op) k (perform k op) := by
  cases op with
  | createProcess entry block stack => exact k.lets_createProcess entry block stack
  | load image rsp block stack => exact k.lets_elfLoadArgs image rsp block stack
  | spawn parent image rsp block stack =>
    exact k.lets_spawnUserPathArgs parent image rsp block stack
  | fork self dir block stack bufs => exact k.lets_doFork self dir block stack bufs
  | clone self fn stack arg flags block kstack =>
    exact k.lets_doClone self fn stack arg flags block kstack
  | execve self image argc sp => exact k.lets_doExecve self image argc sp
  | exit self code => exact k.lets_exit ⟨rfl, rfl⟩ code true
  | waitpid self wpid options => exact k.lets_doWaitpid ⟨rfl, rfl⟩ wpid options
  | kwait self pid => exact k.lets_kwait ⟨rfl, rfl⟩ pid
  | reapZombies => exact lets_reapFrom _ k 0
  | destroyProcess pid => exact k.lets_destroyProcess fun q hq => ⟨hq, rfl⟩
  | kill pid sig => exact k.lets_doKill pid sig
  | dispatch self writable =>
    exact k.lets_signalDispatch ⟨rfl, .inl rfl⟩ ⟨rfl, .inr rfl⟩ writable
  | userFault self sig writable => exact k.lets_userFault ⟨rfl, rfl⟩ sig writable
  | mmap | mprotect | munmap | signal | resumed | sigreturn | sigprocmask | trap =>
    exact lets_of_cores (k.cores_quiet rfl)

end Kernel
end Nyx.Process
