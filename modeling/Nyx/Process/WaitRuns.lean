import Nyx.Process.WaitProtocol

/-! Runs of the waiting protocol.

On one core and with pids that identify tasks, no exit status is lost or returned twice and
no wake-up is missed (`waitpid_protocol`). The counter of the pids is wider than a pid: after
2^32 of them a task gets the pid 0, which `wake_waiters` takes for no parent. -/
namespace Nyx.Process
open Nyx.Lib Function List

namespace Kernel
variable {k : Kernel} {inside : Nat → Option Request} {log : List Notice}

theorem takes_doExecve (self : Nat) (load : Load) (argc sp : BitVec 64) :
    Takes k (k.doExecve self load argc sp).1 inside inside log log := by
  rcases k.doExecve_outcome self load argc sp with h | ⟨_, dir, h⟩
  · exact takes_same h
  refine takes_calm (congrArg Cores.table h :) (congrArg Cores.nextPid h :) fun q => .of_eq ?_
  have hcore : ((k.doExecve self load argc sp).1.procs q).core = _ :=
    congrFun (congrArg Cores.core h) q
  rw [member, hcore]
  simp only [Cores.modify, update_apply]
  split
  case isTrue hq =>
    rw [hq]
    rfl
  case isFalse => rfl

theorem takes_doKill (pid sig : BitVec 32) :
    Takes k (k.doKill pid sig).1 inside inside log log := by
  simp only [doKill]
  split
  · exact .refl
  split
  · exact .refl
  case h_2 target _ => exact takes_signalRaise target sig

/-- The operations that create no task, end none and wait for none. -/
theorem takes_quiet {op : Op} (h : (perform k op).cores = k.cores) (hnone : Waits.notices k op = []) :
    Takes k (perform k op) inside inside log (log ++ Waits.notices k op) := by
  rw [hnone, append_nil]
  exact takes_same h

end Kernel

namespace Waits
open Kernel
variable {s : Waits}

theorem takes_perform {op : Op} (hk : s.kernel.blocks.Owned) (hn : s.kernel.roster.Numbered)
    (hlaw : s.Lawful op) (hcaller : ∀ p ∈ op.caller, p ∈ s.kernel.table) :
    Takes s.kernel (perform s.kernel op) s.inside (s.request op) s.log
      (s.log ++ notices s.kernel op) := by
  have hleft : s.kernel.roster.PidLeft := hlaw.left
  have hsilent : s.log ++ [] = s.log := append_nil _
  cases op with
  | createProcess entry block stack =>
    simp only [notices, hsilent]
    rcases createProcess_outcome hk entry block stack with h | ⟨p, h⟩
    · exact takes_aborted hleft h
    · exact takes_born hleft h rfl rfl
  | load image rsp block stack =>
    simp only [notices, hsilent]
    rcases elfLoadArgs_outcome hk image rsp block stack with ⟨_, h⟩ | ⟨dir, h⟩
    · exact takes_aborted hleft h
    · exact takes_born hleft h rfl rfl
  | spawn parent image rsp block stack =>
    simp only [notices, hsilent]
    rcases spawnUserPathArgs_outcome hk parent image rsp block stack with h | ⟨p, dir, ppid, h⟩
    · exact takes_aborted hleft h
    · exact takes_born hleft h rfl rfl
  | fork self dir block stack bufs =>
    simp only [notices, hsilent]
    rcases doFork_outcome hk self dir block stack bufs with h | ⟨p, dir, h⟩
    · exact takes_aborted hleft h
    · exact takes_born hleft h rfl rfl
  | clone self fn stack arg flags block kstack =>
    simp only [notices, hsilent]
    rcases doClone_outcome hk self fn stack arg flags block kstack with h | ⟨p, h⟩
    · exact takes_aborted hleft h
    · exact takes_born hleft h rfl rfl
  | execve self image argc sp =>
    simp only [notices, hsilent]
    exact takes_doExecve self image argc sp
  | exit self code =>
    simp only [notices, hsilent]
    exact takes_exit hn (hcaller self rfl) code true
  | waitpid => exact takes_doWaitpid hn ..
  | kwait self pid =>
    simp only [notices, hsilent]
    refine takes_kwait ?_ pid
    cases hin : s.inside self with
    | none => rfl
    | some r =>
      -- a task inside of do_waitpid goes on with it, and does not call kwait
      have hgoes := (hlaw.running self rfl).2 r hin
      cases hgoes
  | reapZombies =>
    simp only [notices, hsilent]
    exact takes_reapFrom _ s.kernel 0 hn.once
  | destroyProcess pid => cases hlaw.spared
  | kill pid sig =>
    simp only [notices, hsilent]
    exact takes_doKill pid sig
  | dispatch self writable =>
    exact takes_dispatch hn (hcaller self rfl) (hlaw.running self rfl).1 writable
  | userFault self sig writable =>
    simp only [notices, hsilent]
    exact takes_userFault hn (hcaller self rfl) sig writable
  | mmap | mprotect | munmap | signal | resumed | sigreturn | sigprocmask | trap =>
    exact takes_quiet (cores_quiet _ rfl) rfl

/-- What a lawful run keeps: tasks own their blocks, pids identify them, and no wake-up is
lost. -/
structure Inv (s : Waits) : Prop where
  owned : s.kernel.blocks.Owned
  numbered : s.kernel.roster.Numbered
  safe : s.watch.Safe

theorem step_kernel (s : Waits) (op : Op) : (s.step op).kernel = Process.step s.kernel op := by
  simp only [step, Process.step]
  split <;> rfl

theorem inv_step (s : Waits) (op : Op) (h : s.Inv) (hlaw : s.Lawful op) : (s.step op).Inv := by
  refine ⟨?_, ?_, ?_⟩
  · rw [step_kernel]
    exact owned_step s.kernel op h.owned
  · rw [step_kernel]
    have hsteps : Steps Roster.PidLeft (fun _ _ => True) s.kernel (Process.step s.kernel op) :=
      roster_step s.kernel op h.owned hlaw.left fun _ _ _ _ _ _ => trivial
    exact Roster.numbered_steps hsteps h.numbered
  · simp only [step]
    split
    case isTrue hcaller =>
      exact Watch.safe_steps (takes_perform h.owned h.numbered hlaw hcaller) h.safe
    case isFalse => exact h.safe

theorem safe_empty : (Kernel.empty.cores.watch (fun _ => none) []).Safe where
  awake := fun _ hp => absurd hp not_mem_nil
  pending := fun _ hp => absurd hp not_mem_nil
  past := fun _ h => absurd h not_mem_nil
  once := nodup_nil
  parent := fun _ _ _ _ h => absurd h not_mem_nil
  reports := fun told _ _ he =>
    absurd he.symm (append_ne_nil_of_right_ne_nil told (cons_ne_nil _ _))

theorem inv_boot (init : Nat) : (boot init).Inv := by
  refine ⟨owned_boot init, (groups_boot init).1, ?_⟩
  have htakes : Takes Kernel.empty (Process.boot init) (fun _ => none) (fun _ => none) [] [] := by
    rcases initProcess_outcome owned_empty init with h | ⟨p, h⟩
    · exact takes_aborted pidLeft_empty h
    · exact takes_born pidLeft_empty h rfl rfl
  exact Watch.safe_steps htakes safe_empty

theorem inv_after (init : Nat) (ops : List Op) (h : Admissible step Lawful (boot init) ops) :
    (after init ops).Inv := run_invariant inv_step (boot init) ops (inv_boot init) h

/-- What the parents of dead and stopped tasks rely on. -/
structure Protocol (s : Waits) : Prop where
  /-- Every exit status is returned at most once, -/
  once : (s.log.filterMap Watch.exitedPid).Nodup
  /-- and to the parent. -/
  parent : ∀ caller ppid pid status, .exited caller ppid pid status ∈ s.log → caller = ppid
  /-- `reap_zombies` leaves the children of a live user process. -/
  spared : ∀ p ∈ s.kernel.reapedFrom s.kernel.table.length 0, ∀ q ∈ s.kernel.table,
    (s.kernel.procs q).pid = (s.kernel.procs p).ppid →
      (s.kernel.procs q).pageDirectory = 0 ∨ (s.kernel.procs q).state = .zombie
  /-- Every stop is reported at most once. -/
  reports : Watch.ReportsOnce s.log
  /-- Who sleeps in `do_waitpid` asked for no child that is dead. -/
  awake : ∀ p ∈ s.kernel.table, (s.kernel.procs p).state = .blocked → ∀ r ∈ s.inside p,
    ∀ c ∈ s.kernel.table, s.kernel.awaited p r.wpid c = true → (s.kernel.procs c).state ≠ .zombie

/-- On one core, and as long as fewer than 2^32 tasks were created, the waiting protocol holds
after every interleaving. -/
theorem waitpid_protocol (init : Nat) (ops : List Op)
    (h : Admissible step Lawful (boot init) ops) : (after init ops).Protocol := by
  have hinv := inv_after init ops h
  refine ⟨hinv.safe.once, hinv.safe.parent, reapedFrom_orphans _ _ _ hinv.numbered,
    hinv.safe.reports, fun p hp hblocked r hr c hc hawaited => ?_⟩
  have hc0 : c ≠ 0 := fun he => hinv.numbered.nonnull (he ▸ hc)
  exact (hinv.safe.awake p hp hblocked r hr).2 c hc ((awaited_iff p r.wpid hc0).mp hawaited)

/-- A process (at 48) sleeps for its child (at 80), which stops, is reported and continued,
and exits while the parent sleeps for it again. -/
def nursery : List Op :=
  [.spawn none (.loaded 32 0x400000#64 0x500000#64) 0x7FF000#64 48 64,
    .fork 48 128 80 96 fun _ => 0, .waitpid 48 0 2, .kill 3 19, .dispatch 80 true, .waitpid 48 0 2,
    .kill 3 18, .waitpid 48 0 0, .exit 80 7, .reapZombies, .waitpid 48 0 0]

theorem waitpid_protocol_nursery :
    (after 16 nursery).log = [.stopped 3, .reported 3, .exited 2 2 3 7] ∧
      (after 16 nursery).Protocol :=
  ⟨by decide +kernel, waitpid_protocol 16 nursery (by decide +kernel)⟩

end Waits

/-! ### Pids that wrap around -/

namespace Kernel

/-- The kernel when `do_fork` has allocated the child `b` and its page directory `d`. -/
def begun (k : Kernel) (parent d b : Nat) : Kernel :=
  { k with
    procs := Function.update k.procs b (forkedProc (k.procs parent) d (k.nextPid.setWidth 32))
    nextPid := k.nextPid + 1
    heap := Function.update k.heap b true
    dirs := Function.update k.dirs d true }

/-- `do_fork` has what it needs but for the kernel stack, and no snapshot to copy. -/
structure Forkable (k : Kernel) (parent d b : Nat) : Prop where
  user : (k.procs parent).pageDirectory ≠ 0
  room : k.table.length < maxProcesses
  dir : d ≠ 0 ∧ k.dirs d = false
  block : b ≠ 0 ∧ k.heap b = false
  plain : ∀ i, ((k.procs parent).mmapVmas i).used = false

instance (k : Kernel) (parent d b : Nat) : Decidable (k.Forkable parent d b) :=
  decidable_of_iff (_ ∧ _ ∧ _ ∧ _ ∧ _)
    ⟨fun h => ⟨h.1, h.2.1, h.2.2.1, h.2.2.2.1, h.2.2.2.2⟩, fun h => ⟨h.1, h.2, h.3, h.4, h.5⟩⟩

variable {k : Kernel} {parent d b : Nat}

section
variable (h : k.Forkable parent d b)
include h

variable (bufs : Fin procMaxVmas → Nat)

theorem Forkable.dupBufs : (k.begun parent d b).dupBufs b bufs = k.begun parent d b := by
  refine foldl_fixed' (fun i => ?_) _
  simp only [dupBuf, begun, update_self]
  rw [if_neg]
  show ¬ (((k.procs parent).mmapVmas i).used && _) = true
  rw [h.plain i]
  exact Bool.false_ne_true

theorem Forkable.doFork (stack : Nat) (bufs : Fin procMaxVmas → Nat) :
    (k.doFork parent d b stack bufs).1 =
      match ((k.begun parent d b).increfPipes (k.procs parent)).initTaskStack b stack
        (forkedFrame (k.procs parent).frame) with
      | (k₁, true) =>
        ((k₁.modify parent fun t => {t with schedManaged := true}).modify b
          fun t => {t with schedManaged := true}).append b
      | (k₁, false) => (k₁.freePageDirectory d 0).kfree b := by
  have hdup := h.dupBufs bufs
  simp only [begun] at hdup
  simp only [Kernel.doFork, allocPageDirectory, newTask, kmalloc, h.user, h.dir, h.block, modify,
    not_le.mpr h.room, or_self, if_false, Bool.false_eq_true, hdup, begun]
  generalize initTaskStack _ b stack _ = r
  obtain ⟨k₁, ok⟩ := r
  cases ok <;> rfl

/-- The kernel stack cannot be allocated: the fork fails, and its pid is gone. -/
theorem Forkable.fails : (k.doFork parent d b 0 bufs).1 =
      { k with
        procs := update k.procs b (forkedProc (k.procs parent) d (k.nextPid.setWidth 32))
        nextPid := k.nextPid + 1
        teardowns := (k.doFork parent d b 0 bufs).1.teardowns
        kfrees := (k.doFork parent d b 0 bufs).1.kfrees
        fdCalls := k.fdCalls ++ pipeIncrefs (k.procs parent) } := by
  have hheap : update (update k.heap b true) b false = k.heap := by
    rw [update_idem, ← h.block.2, update_eq_self]
  have hdirs : update (update k.dirs d true) d false = k.dirs := by
    rw [update_idem, ← h.dir.2, update_eq_self]
  rw [h.doFork 0 bufs]
  simp only [initTaskStack, kmalloc, true_or, if_true, freePageDirectory, h.dir.1, if_false, kfree,
    h.block.1, increfPipes, begun, hheap, hdirs]
  rfl

theorem Forkable.forks {stack : Nat} (hstack : stack ≠ 0 ∧ stack ≠ b ∧ k.heap stack = false)
    (hself : parent ≠ b) (bufs : Fin procMaxVmas → Nat) :
    (k.doFork parent d b stack bufs).1 =
      { k with
        table := k.table ++ [b]
        procs := update (update k.procs b
            {forkedProc (k.procs parent) d (k.nextPid.setWidth 32) with
              kernelStack := stack
              frame := forkedFrame (k.procs parent).frame
              schedManaged := true})
          parent {k.procs parent with schedManaged := true}
        nextPid := k.nextPid + 1
        heap := update (update k.heap b true) stack true
        dirs := update k.dirs d true
        fdCalls := k.fdCalls ++ pipeIncrefs (k.procs parent) } := by
  have hfree : update k.heap b true stack = false := by
    rw [update_of_ne hstack.2.1, hstack.2.2]
  rw [h.doFork stack bufs]
  simp only [initTaskStack, kmalloc, hstack.1, false_or, increfPipes, begun, hfree, if_false,
    Bool.false_eq_true, modify, append, update_self, update_of_ne hself,
    update_of_ne hself.symm, update_idem]
  rw [update_comm hself, update_idem]
  rfl

end

/-- Two kernels that a fork cannot tell apart, unless it looks at what is left in `spare`. -/
structure Alike (spare : Nat) (k k' : Kernel) : Prop where
  table : k.table = k'.table
  procs : ∀ p, p ≠ spare → k.procs p = k'.procs p
  next : k.nextPid = k'.nextPid
  heap : k.heap = k'.heap
  dirs : k.dirs = k'.dirs

section
variable {spare stack : Nat} {k' : Kernel}

theorem Alike.forkable (h : Alike spare k k') (hparent : parent ≠ spare)
    (hf : k'.Forkable parent d b) : k.Forkable parent d b where
  user := h.procs parent hparent ▸ hf.user
  room := h.table ▸ hf.room
  dir := h.dirs ▸ hf.dir
  block := h.heap ▸ hf.block
  plain := h.procs parent hparent ▸ hf.plain

theorem Alike.fails (h : Alike b k k') (hparent : parent ≠ b) (hf : k'.Forkable parent d b)
    (bufs : Fin procMaxVmas → Nat) :
    Alike b (k.doFork parent d b 0 bufs).1 {k' with nextPid := k'.nextPid + 1} := by
  rw [(h.forkable hparent hf).fails bufs]
  refine ⟨h.table, fun p hp => ?_, congrArg (· + 1) h.next, h.heap, h.dirs⟩
  exact (update_of_ne hp ..).trans (h.procs p hp)

theorem Alike.forks (h : Alike spare k k') (hparent : parent ≠ spare)
    (hf : k'.Forkable parent d b) (hstack : stack ≠ 0 ∧ stack ≠ b ∧ k'.heap stack = false)
    (hself : parent ≠ b) (bufs : Fin procMaxVmas → Nat) :
    Alike spare (k.doFork parent d b stack bufs).1 (k'.doFork parent d b stack bufs).1 := by
  rw [(h.forkable hparent hf).forks (h.heap ▸ hstack) hself bufs, hf.forks hstack hself bufs,
    h.procs parent hparent]
  refine ⟨congrArg (· ++ [b]) h.table, fun p hp => ?_, congrArg (· + 1) h.next, ?_, ?_⟩
  · simp only [update_apply, h.procs p hp, h.next]
  · exact congrArg (fun heap => update (update heap b true) stack true) h.heap
  · exact congrArg (fun dirs => update dirs d true) h.dirs

end

/-- A task whose parent has the pid 0 wakes nobody when it exits. -/
theorem member_exit {r : Nat} (h : (k.member r).ppid = 0) (code : BitVec 32) :
    (k.exit r code true).member = update k.member r {k.member r with state := .zombie} := by
  have hclosed (q : Nat) : ((k.modify r fun t => {t with exitCode := code}).closeProcFds r).member q =
      k.member q := (member_closeProcFds r q).trans
      (k.modify_field r (fun t => {t with exitCode := code}) (·.core.member) (fun _ => rfl) q)
  simp only [exit, if_true]
  generalize (k.modify r _).closeProcFds r = k₁ at hclosed ⊢
  have hmember := k₁.member_modify r (f := fun t => {t with state := .zombie}) rfl
  have hppid : ((k₁.modify r fun t => {t with state := .zombie}).procs r).ppid = 0 := by
    rw [modify_procs_self]
    exact (congrArg Member.ppid (hclosed r)).trans h
  rw [wakeWaiters, if_pos hppid, hmember, show k₁.member = k.member from funext hclosed]
  exact congrArg (update k.member r) (congrArg (fun m : Member => {m with state := .zombie}) (hclosed r))

theorem doWaitpid_parks {q r : Nat} (hr : r ∈ k.table) (hawaited : k.awaited q 0 r = true)
    (hlive : ∀ c ∈ k.table, (k.procs c).state ≠ .zombie) :
    k.doWaitpid q 0 0 =
      (k.modify q fun t => {t with state := .blocked, waitingFor := 0}, .parked) := by
  have hany : k.table.any (k.awaited q 0) = true := any_eq_true.mpr ⟨r, hr, hawaited⟩
  have hnone : k.table.findIdx? (fun p => k.awaited q 0 p && (k.procs p).state == .zombie) =
      none := by
    rw [findIdx?_eq_none_iff]
    intro p hp
    simp [hlive p hp]
  have hstop : k.stoppedChild q 0 0 = none := by
    simp [stoppedChild]
  simp only [doWaitpid, hany, hnone, hstop]
  rfl

end Kernel

namespace Waits
open Kernel

/-- `q` sleeps in `do_waitpid` for any child while `r` is a dead one. -/
structure Oversleeps (s : Waits) (q r : Nat) : Prop where
  asleep : (s.kernel.procs q).state = .blocked
  asked : s.inside q = some ⟨0, 0⟩
  parent : q ∈ s.kernel.table
  child : r ∈ s.kernel.table
  awaited : s.kernel.awaited q 0 r = true
  dead : (s.kernel.procs r).state = .zombie

/-- A task with the pid 0 sleeps for a child, and sleeps on when the child exits. -/
theorem oversleeps_of_pid_zero (s : Waits) {q r : Nat} (hq : q ∈ s.kernel.table)
    (hr : r ∈ s.kernel.table) (hr0 : r ≠ 0) (hne : q ≠ r) (hpid : (s.kernel.member q).pid = 0)
    (hppid : (s.kernel.member r).ppid = 0)
    (hlive : ∀ c ∈ s.kernel.table, (s.kernel.member c).state ≠ .zombie) :
    (run step s [.waitpid q 0 0, .exit r 0]).Oversleeps q r := by
  have hawaits : s.watch.Awaits q 0 r := ⟨hppid.trans hpid.symm, nofun⟩
  have hparks := doWaitpid_parks hr ((awaited_iff q 0 hr0).mpr hawaits) hlive
  generalize hk₁ : s.kernel.modify q _ = k₁ at hparks
  have hwait : s.step (.waitpid q 0 0) = ⟨k₁, update s.inside q (some ⟨0, 0⟩),
      s.log ++ notices s.kernel (.waitpid q 0 0)⟩ := by
    rw [step, if_pos (fun p hp => Option.some.inj hp ▸ hq)]
    simp only [perform, request, hparks, if_true]
  have hk₁q : k₁.member q = {s.kernel.member q with state := .blocked, waitingFor := 0} := by
    rw [← hk₁, member_modify_self]
    rfl
  have hk₁r : k₁.member r = s.kernel.member r := by
    rw [← hk₁, member_modify_ne _ hne.symm]
  have htable : k₁.table = s.kernel.table := by
    rw [← hk₁, modify_table]
  have hmember := member_exit (hk₁r ▸ hppid) 0
  have htable' : (k₁.exit r 0 true).table = k₁.table :=
    (congrArg Roster.table (k₁.roster_exit r 0 true) :)
  generalize hk₂ : k₁.exit r 0 true = k₂ at hmember htable'
  have hk₂q : k₂.member q = k₁.member q := by
    rw [hmember, update_of_ne hne]
  have hk₂r : k₂.member r = {k₁.member r with state := .zombie} := by
    rw [hmember, update_self]
  have hrun : run step s [.waitpid q 0 0, .exit r 0] = ⟨k₂, update s.inside q (some ⟨0, 0⟩),
        s.log ++ notices s.kernel (.waitpid q 0 0) ++ []⟩ := by
    rw [run, hwait, run, run, step, if_pos (fun p hp => Option.some.inj hp ▸ htable.symm ▸ hr)]
    rw [← hk₂]
    rfl
  rw [hrun]
  refine ⟨?_, update_self .., ?_, ?_, ?_, ?_⟩
  · exact (congrArg Member.state hk₂q).trans (congrArg Member.state hk₁q)
  · exact htable'.trans htable ▸ hq
  · exact htable'.trans htable ▸ hr
  · have hiff : k₂.awaited q 0 r = true ↔ (k₂.cores.watch s.inside s.log).Awaits q 0 r :=
      awaited_iff q 0 hr0
    refine hiff.mpr ⟨?_, nofun⟩
    show (k₂.member r).ppid = (k₂.member q).pid
    rw [hk₂r, hk₂q, hk₁r, hk₁q]
    exact hppid.trans hpid.symm
  · exact congrArg Member.state hk₂r

variable {s : Waits} {n : BitVec 64}

theorem alike_fork {k : Kernel} {spare parent d b stack : Nat} {bufs : Fin procMaxVmas → Nat}
    (h : Alike spare s.kernel k) (hparent : parent ≠ spare ∧ parent ≠ b ∧ parent ∈ k.table)
    (hf : k.Forkable parent d b) (hstack : stack ≠ 0 ∧ stack ≠ b ∧ k.heap stack = false) :
    Alike spare (s.step (.fork parent d b stack bufs)).kernel
      (Process.step k (.fork parent d b stack bufs)) := by
  rw [step_kernel, Process.step, Process.step,
    if_pos (fun p hp => Option.some.inj hp ▸ h.table ▸ hparent.2.2),
    if_pos (fun p hp => Option.some.inj hp ▸ hparent.2.2)]
  exact h.forks hparent.1 hf hstack hparent.2.1 bufs

/-- One user process (at 48). -/
def lone : Waits := .after 16 [.spawn none (.loaded 32 0x400000#64 0x500000#64) 0x7FF000#64 48 64]

/-- The process forks while there is no memory for a kernel stack. -/
def failingFork : Op := .fork 48 128 144 0 fun _ => 0

/-- Forks failed since, and `n` is the next pid. -/
def Spent (n : BitVec 64) (s : Waits) : Prop := Alike 144 s.kernel {lone.kernel with nextPid := n}

theorem spent_fails (h : Spent n s) : Spent (n + 1) (s.step failingFork) := by
  have hcaller : ∀ p ∈ failingFork.caller, p ∈ lone.kernel.table := by decide +kernel
  have hf : lone.kernel.Forkable 48 128 144 := by decide +kernel
  rw [step, if_pos (fun p hp => Alike.table h ▸ hcaller p hp)]
  exact Alike.fails h (by decide) ⟨hf.user, hf.room, hf.dir, hf.block, hf.plain⟩ _

theorem spent_run (h : Spent n s) (m : Nat) :
    Spent (n + BitVec.ofNat 64 m) (run step s (replicate m failingFork)) := by
  induction m generalizing n s with
  | zero =>
    rw [show n + BitVec.ofNat 64 0 = n from BitVec.add_zero n]
    exact h
  | succ m ih =>
    have hsum : n + BitVec.ofNat 64 (m + 1) = n + 1 + BitVec.ofNat 64 m := by
      rw [BitVec.ofNat_add, BitVec.add_assoc, BitVec.add_comm (BitVec.ofNat 64 m)]
      rfl
    rw [hsum]
    exact ih (spent_fails h)

/-- The process forks a child (at 80), and the child one (at 112). -/
def family : List Op := [.fork 48 128 80 96 fun _ => 0, .fork 80 136 112 120 fun _ => 0]

/-- What `family` leaves when the next pid is 0 and no fork failed before. -/
def sample : Kernel := run Process.step {lone.kernel with nextPid := 2 ^ 32} family

theorem alike_family (h : Spent (2 ^ 32) s) : Alike 144 (run step s family).kernel sample := by
  have hfirst : Alike 144 (s.step (.fork 48 128 80 96 fun _ => 0)).kernel _ :=
    alike_fork h (by decide +kernel) (by decide +kernel) (by decide +kernel)
  exact alike_fork hfirst (by decide +kernel) (by decide +kernel) (by decide +kernel)

/-- The child, which got the pid 0, waits for its own, which exits: nobody wakes it. -/
theorem oversleeps_family {s : Waits} (h : Spent (2 ^ 32) s) :
    (run step (run step s family) [.waitpid 80 0 0, .exit 112 0]).Oversleeps 80 112 := by
  have hlike := alike_family h
  have htable : (run step s family).kernel.table = [16, 48, 80, 112] :=
    hlike.table.trans (by decide +kernel)
  have hmember (p : Nat) (hp : p ≠ 144) : (run step s family).kernel.member p = sample.member p := by
    rw [member, hlike.procs p hp]
    rfl
  refine oversleeps_of_pid_zero _ ?_ ?_ (by decide) (by decide) ?_ ?_ ?_
  · rw [htable]
    decide
  · rw [htable]
    decide
  · rw [hmember 80 (by decide)]
    decide +kernel
  · rw [hmember 112 (by decide)]
    decide +kernel
  · rw [htable]
    intro c hc
    have hlive : ∀ c ∈ [16, 48, 80, 112], c ≠ 144 ∧ (sample.member c).state ≠ .zombie := by
      decide +kernel
    rw [hmember c (hlive c hc).1]
    exact (hlive c hc).2

/-- After 2^32 - 3 forks that failed the child of the process gets the pid 0, and sleeps on
in `do_waitpid` when its own child is dead. -/
theorem pid_zero_oversleeps : (run step lone (List.replicate (2 ^ 32 - 3) failingFork ++ family ++
      [.waitpid 80 0 0, .exit 112 0])).Oversleeps 80 112 ∧
    ¬ (run step lone (List.replicate (2 ^ 32 - 3) failingFork ++ family ++
      [.waitpid 80 0 0, .exit 112 0])).Protocol := by
  have hlone : Spent 3 lone := ⟨rfl, fun _ _ => rfl, by decide +kernel, rfl, rfl⟩
  have hsum : 3 + BitVec.ofNat 64 (2 ^ 32 - 3) = (2 ^ 32 : BitVec 64) := by decide
  have hspent : Spent (2 ^ 32) (run step lone (List.replicate (2 ^ 32 - 3) failingFork)) :=
    hsum ▸ spent_run hlone (2 ^ 32 - 3)
  rw [run_append, run_append]
  generalize run step lone (List.replicate (2 ^ 32 - 3) failingFork) = s at hspent
  have h := oversleeps_family hspent
  exact ⟨h, fun hok => hok.awake 80 h.parent h.asleep _ h.asked 112 h.child h.awaited h.dead⟩

end Waits
end Nyx.Process
