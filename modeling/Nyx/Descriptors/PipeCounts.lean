import Nyx.Descriptors.PipeRefs
import Nyx.Process.WaitRuns

/-! The reference counts of pipes over whole runs.

As long as pids identify tasks, a pipe counts exactly the descriptors that name it
(`pipe_refs_exact`). When the counter of the pids has gone round, a task with the pid 0 dies as
everybody's leader, and a task's descriptors are overwritten with a stranger's. -/
namespace Nyx.Descriptors
open Nyx.Process Nyx.Process.Kernel Nyx.Lib Function List

/-- The descriptors in use of the tasks in `l`. -/
def rows (t : Nat → Proc) (l : List Nat) : Slots := fun p i =>
  if p ∈ l ∧ (t p).ufdInuse i = true then some ((t p).ufdHandle i) else none

variable (t : Nat → Proc) {l : List Nat}

theorem rows_cons {p : Nat} (hp : p ∉ l) : rows t (p :: l) = update (rows t l) p fun i =>
      if i ∈ (finRange procMaxFds).filter (t p).ufdInuse then some ((t p).ufdHandle i)
      else rows t l p i := by
  funext q i
  rcases eq_or_ne q p with rfl | hq
  · simp [rows, hp]
  · simp [rows, hq]

theorem encard_naming (hl : l.Nodup) (id : Fin maxPipes) (w : Bool) :
    (naming (rows t l) id w).encard = ((l.map fun p => ends (t p) id w).sum : ℕ) := by
  induction l with
  | nil =>
    have hnone : Function.uncurry (rows t []) = fun _ => none := by
      funext ⟨p, i⟩
      simp [rows]
    rw [naming, hnone, holders_none, Set.encard_empty]
    rfl
  | cons p l ih =>
    rw [nodup_cons] at hl
    have hfree : ∀ i ∈ (finRange procMaxFds).filter (t p).ufdInuse, rows t l p i = none :=
      fun i _ => if_neg fun h => hl.1 h.1
    rw [rows_cons t hl.1, naming_fill ((nodup_finRange _).filter _) _ hfree, ih hl.2,
      map_cons, sum_cons, add_comm]
    push_cast
    rfl

namespace Io

/-- The descriptors in use, over all tables, that are that end of the pipe. -/
def slots (s : Io) (id : Fin maxPipes) (isWrite : Bool) : Nat :=
  (s.kernel.table.map fun p => ends (s.kernel.procs p) id isWrite).sum

/-- Every pipe counts its descriptors, and is marked used as long as it has some. -/
structure RefsExact (s : Io) : Prop where
  readRefs : ∀ id, (s.pipes id).readRefs = s.slots id false
  writeRefs : ∀ id, (s.pipes id).writeRefs = s.slots id true
  used : ∀ id, (s.pipes id).used = true ↔ s.slots id false + s.slots id true ≠ 0

theorem Tally.exact {s : Io} (ht : Tally [] s) : s.RefsExact := by
  have hrefs (id : Fin maxPipes) (w : Bool) : (s.pipes id).refs w = s.slots id w := by
    have hc := ht.due.counts id w
    rw [countP_nil, Nat.cast_zero, add_zero] at hc
    exact Nat.cast_injective (hc.trans (encard_naming s.kernel.procs ht.grouped.numbered.once id w))
  refine ⟨fun id => hrefs id false, fun id => hrefs id true, fun id => ?_⟩
  rw [← hrefs id false, ← hrefs id true, ne_eq, Nat.add_eq_zero_iff, Decidable.not_and_iff_or_not]
  exact ht.due.marked id

theorem tally_boot (init : Nat) : Tally [] (boot init) := by
  refine ⟨owned_boot init, grouped_boot init, fun id w => ?_, fun id => ?_⟩
  · show ((Pipe.zero.refs w : ℕ) : ℕ∞) = (naming (Process.boot init).roster.slot id w).encard + _
    have hnone : Function.uncurry (Process.boot init).roster.slot = fun _ => none := by
      rw [slot_boot]
      rfl
    rw [naming, hnone, holders_none, Set.encard_empty]
    cases w <;> rfl
  · exact iff_of_false Bool.false_ne_true (not_or.mpr ⟨not_not.mpr rfl, not_not.mpr rfl⟩)

/-- The condition on a call of a run: pids are left, and a fork succeeds. -/
def Counted (s : Io) (sys : Sys) : Prop := s.kernel.nextPid.toNat < 2 ^ 32 ∧ s.Succeeds sys

instance (s : Io) (sys : Sys) : Decidable (s.Succeeds sys) := by
  unfold Succeeds
  split <;> infer_instance

instance (s : Io) (sys : Sys) : Decidable (s.Counted sys) := inferInstanceAs (Decidable (_ ∧ _))

/-- In every run with forks that succeed, until 2^32 tasks were created. -/
theorem pipe_refs_exact (init : Nat) (calls : List Sys)
    (h : Admissible step Counted (boot init) calls) : (after init calls).RefsExact :=
  (run_invariant (P := fun s => Tally [] s) (fun _ _ ht hc => tally_step ht hc.1 hc.2) (boot init)
    calls (tally_boot init) h).exact

/-- A process (at 48) opens a pipe, duplicates the read end and forks; the child (at 144)
closes the write end; the process replaces its own with the read end, and exits. -/
def sharesPipe : List Sys :=
  [.process (.load (.loaded 32 0x400000#64 0x500000#64) 0x7FF000#64 48 64), .pipe 48 .good,
    .dup 48 3#32, .process (.fork 48 128 144 160 fun _ => 0), .close 144 4#32,
    .dup2 48 3#32 4#32, .process (.exit 48 0)]

theorem pipe_refs_exact_shared :
    ((after 16 sharesPipe).pipes 0).readRefs = 2 ∧ ((after 16 sharesPipe).pipes 0).writeRefs = 0 ∧
      (after 16 sharesPipe).RefsExact :=
  ⟨by decide +kernel, by decide +kernel, pipe_refs_exact 16 sharesPipe (by decide +kernel)⟩

end Io
end Nyx.Descriptors

/-! ### Pids that go round -/

namespace Nyx.Process.Kernel
open Function
variable {k : Kernel}

/-- A process (at 48) without descriptors and regions, and its child (at 144). -/
structure Raising (k : Kernel) : Prop where
  table : k.table = [16, 48, 144]
  init : (k.procs 16).pid = 1 ∧ (k.procs 16).ppid = 0 ∧ (k.procs 16).tgid = 0 ∧
    (k.procs 16).pageDirectory = 0
  parent : (k.procs 48).pid = 2 ∧ (k.procs 48).ppid = 0 ∧ (k.procs 48).tgid = 0 ∧
    (k.procs 48).pageDirectory = 32 ∧ (k.procs 48).state = .run
  child : (k.procs 144).ppid = 2 ∧ (k.procs 144).pageDirectory = 128 ∧
    (k.procs 144).kernelStack = 160
  named : (k.procs 144).pid ≠ 0
  plain : ∀ i, ((k.procs 144).mmapVmas i).fileBuf = 0

theorem Raising.modify (h : Raising k) {f : Proc → Proc} (hpid : ∀ t, (f t).pid = t.pid)
    (hchild : ∀ t, (f t).ppid = t.ppid ∧ (f t).pageDirectory = t.pageDirectory ∧
      (f t).kernelStack = t.kernelStack) (hvmas : ∀ t, (f t).mmapVmas = t.mmapVmas) :
    Raising (k.modify 144 f) where
  table := h.table
  init := h.init
  parent := h.parent
  child := by simp [hchild, h.child]
  named := by simpa [hpid] using h.named
  plain := by simpa [hvmas] using h.plain

theorem Raising.exits (h : Raising k) : k.exit 144 0 true =
      { k with
        procs := update k.procs 144
          {k.procs 144 with exitCode := 0, ufdInuse := fun _ => false, state := .zombie}
        fdCalls := (k.exit 144 0 true).fdCalls } := by
  simp [exit, closeProcFds, wakeWaiters, findProcess, Kernel.modify, h.table, h.init, h.parent,
    h.child]

theorem Raising.mmapFreeBufs (h : Raising k) : k.mmapFreeBufs 144 = k := by
  refine List.foldl_fixed' (fun i => ?_) _
  rw [freeBuf, h.plain i]
  rfl

theorem Raising.tgReassignLeader (h : Raising k) : k.tgReassignLeader 144 = k := by
  have hnone : k.table.find? (k.inGroup 144) = none := by
    have hne : ¬ 0#32 = (k.procs 144).pid := h.named.symm
    simp [inGroup, h.table, h.init, h.parent, hne]
  rw [Kernel.tgReassignLeader, hnone]

/-- The parent collects it, and nothing is left of it but the record. -/
theorem Raising.reaps (h : Raising k) (hdead : (k.procs 144).state = .zombie)
    (hidx : k.currentIdx = 0) :
    k.table.findIdx? (fun p => k.awaited 48 0 p && (k.procs p).state == .zombie) = some 2 ∧
      k.reapEntry 144 2 = { k with
        table := [16, 48]
        procs := update k.procs 144 {k.procs 144 with ufdInuse := fun _ => false}
        heap := update (update k.heap 160 false) 144 false
        dirs := update k.dirs 128 false
        teardowns := (k.reapEntry 144 2).teardowns
        kfrees := (k.reapEntry 144 2).kfrees
        fdCalls := (k.reapEntry 144 2).fdCalls } := by
  have hshut : Raising (k.closeProcFds 144) := by
    have hm := h.modify (f := fun t => {t with ufdInuse := fun _ => false}) (fun _ => rfl)
      (fun _ => ⟨rfl, rfl, rfl⟩) fun _ => rfl
    exact ⟨hm.table, hm.init, hm.parent, hm.child, hm.named, hm.plain⟩
  constructor
  · simp [awaited, h.table, h.init, h.parent, h.child, hdead, List.findIdx?_cons]
  · rw [reapEntry, tearDown, hshut.tgReassignLeader, hshut.mmapFreeBufs]
    simp [releaseSpace, closeProcFds, Kernel.modify, addrSpaceShared, h.table, h.init, h.parent,
      h.child, freePageDirectory, kfree, patchIndex, removeEntry, hidx, Lib.swapRemove]

/-- The process alone, as it was when it last collected a child. -/
structure Alone (k : Kernel) : Prop where
  table : k.table = [16, 48]
  init : (k.procs 16).pid = 1 ∧ (k.procs 16).ppid = 0 ∧ (k.procs 16).tgid = 0 ∧
    (k.procs 16).pageDirectory = 0
  parent : (k.procs 48).pid = 2 ∧ (k.procs 48).ppid = 0 ∧ (k.procs 48).tgid = 0 ∧
    (k.procs 48).pageDirectory = 32 ∧ (k.procs 48).state = .run
  managed : (k.procs 48).schedManaged = true
  plain : ∀ i, ((k.procs 48).mmapVmas i).used = false ∧ ((k.procs 48).mmapVmas i).fileBuf = 0
  shut : ∀ i, (k.procs 48).ufdInuse i = false
  free : k.heap 144 = false ∧ k.heap 160 = false ∧ k.dirs 128 = false
  idx : k.currentIdx = 0

def newborn (k : Kernel) : Proc :=
  { forkedProc (k.procs 48) 128 (k.nextPid.setWidth 32) with
    kernelStack := 160
    frame := forkedFrame (k.procs 48).frame
    schedManaged := true }

theorem Alone.forks (h : Alone k) : (k.doFork 48 128 144 160 fun _ => 0).1 =
      { k with
        table := [16, 48, 144]
        procs := update k.procs 144 k.newborn
        nextPid := k.nextPid + 1
        heap := update (update k.heap 144 true) 160 true
        dirs := update k.dirs 128 true
        fdCalls := k.fdCalls ++ pipeIncrefs (k.procs 48) } := by
  have hf : k.Forkable 48 128 144 := by
    refine ⟨?_, ?_, ⟨by decide, h.free.2.2⟩, ⟨by decide, h.free.1⟩, fun i => (h.plain i).1⟩
    · rw [h.parent.2.2.2.1]
      decide
    · rw [h.table]
      decide
  have hsame : {k.procs 48 with schedManaged := true} = k.procs 48 := by
    rw [← h.managed]
  rw [hf.forks ⟨by decide, by decide, h.free.2.1⟩ (by decide), hsame, h.table,
    update_comm (by decide), update_eq_self]
  rfl

/-- What is left of the child in its record. -/
def corpse (k : Kernel) (pid : BitVec 32) : Proc :=
  { forkedProc (k.procs 48) 128 pid with
    kernelStack := 160
    frame := forkedFrame (k.procs 48).frame
    schedManaged := true
    exitCode := 0
    ufdInuse := fun _ => false
    state := .zombie }

/-- `k` with the corpse of the child with this pid, and with the counter and the logs of `k'`. -/
def replay (k : Kernel) (pid : BitVec 32) (k' : Kernel) : Kernel :=
  { k with
    procs := Function.update k.procs 144 (k.corpse pid)
    nextPid := k'.nextPid
    teardowns := k'.teardowns
    kfrees := k'.kfrees
    fdCalls := k'.fdCalls }

theorem eq_replay {k k' : Kernel} {pid : BitVec 32} (htable : k'.table = k.table)
    (hcorpse : k'.procs 144 = k.corpse pid) (hprocs : ∀ p, p ≠ 144 → k'.procs p = k.procs p)
    (hidx : k'.currentIdx = k.currentIdx) (hheap : k'.heap = k.heap) (hdirs : k'.dirs = k.dirs)
    (hbuilt : k'.built = k.built) : k' = k.replay pid k' := by
  have hrecord : k'.procs = update k.procs 144 (k.corpse pid) :=
    Function.eq_update_iff.mpr ⟨hcorpse, hprocs⟩
  rw [replay, ← hrecord, ← htable, ← hidx, ← hheap, ← hdirs, ← hbuilt]

theorem replay_replay (k k₁ k₂ : Kernel) (pid pid' : BitVec 32) :
    (k.replay pid k₁).replay pid' k₂ = k.replay pid' k₂ := by
  simp only [replay, update_idem]
  rfl

theorem Alone.replay (h : Alone k) (pid : BitVec 32) (k' : Kernel) : Alone (k.replay pid k') :=
  ⟨h.table, h.init, h.parent, h.managed, h.plain, h.shut, h.free, h.idx⟩

/-- The process forks a child, which exits (`k₁` and `k₂`) and is collected. -/
structure Cycled (k k₁ k₂ : Kernel) : Prop where
  born : k₁.table = [16, 48, 144]
  bare : ∀ i, (k₁.procs 144).ufdInuse i = false
  exited : k₂.table = [16, 48, 144]
  shut : ∀ i, (k₂.procs 144).ufdInuse i = false
  dead : k₂.table.findIdx? (fun p => k₂.awaited 48 0 p && (k₂.procs p).state == .zombie) = some 2
  back : k₂.reapEntry 144 2 = k.replay (k.nextPid.setWidth 32) (k₂.reapEntry 144 2)
  next : (k₂.reapEntry 144 2).nextPid = k.nextPid + 1

theorem Alone.cycled (h : Alone k) (hpid : k.nextPid.setWidth 32 ≠ (0 : BitVec 32)) {k₁ k₂ : Kernel}
    (hk₁ : (k.doFork 48 128 144 160 fun _ => 0).1 = k₁) (hk₂ : k₁.exit 144 0 true = k₂) :
    Cycled k k₁ k₂ := by
  have hforks := hk₁.symm.trans h.forks
  have hborn : Raising k₁ := by
    rw [hforks]
    exact ⟨rfl, h.init, h.parent, ⟨h.parent.1, rfl, rfl⟩, hpid, fun i => (h.plain i).2⟩
  have hexits := hk₂.symm.trans hborn.exits
  rw [hk₂] at hexits
  have hdead : Raising k₂ := by
    have hm := hborn.modify (f := fun t =>
      {t with exitCode := 0, ufdInuse := fun _ => false, state := .zombie}) (fun _ => rfl)
      (fun _ => ⟨rfl, rfl, rfl⟩) fun _ => rfl
    rw [hexits]
    exact ⟨hm.table, hm.init, hm.parent, hm.child, hm.named, hm.plain⟩
  have hidx : k₂.currentIdx = k.currentIdx := by
    rw [hexits, hforks]
  have hzombie : (k₂.procs 144).state = .zombie := by
    rw [hexits]
    simp only [update_self]
  obtain ⟨hfind, hreaps⟩ := hdead.reaps hzombie (hidx.trans h.idx)
  refine ⟨hborn.table, fun i => ?_, hdead.table, fun i => ?_, hfind, eq_replay ?_ ?_ (fun p hp => ?_) ?_ ?_ ?_ ?_, ?_⟩
  · rw [hforks]
    simp [newborn, forkedProc, inheritsFd, h.shut]
  · rw [hexits]
    simp only [update_self]
  · rw [hreaps, h.table]
  · rw [hreaps, hexits, hforks]
    simp only [update_self]
    rfl
  · rw [hreaps, hexits, hforks]
    simp only [update_of_ne hp]
  · rw [hreaps]
    exact hidx
  · rw [hreaps, hexits, hforks]
    funext b
    simp only [update_apply]
    split_ifs with h1 h2
    · rw [h1, h.free.1]
    · rw [h2, h.free.2.1]
    · rfl
  · rw [hreaps, hexits, hforks]
    dsimp only
    rw [update_idem, ← h.free.2.2, update_eq_self]
  · rw [hreaps, hexits, hforks]
  · rw [hreaps, hexits, hforks]

end Nyx.Process.Kernel

namespace Nyx.Descriptors.Io
open Nyx.Process Nyx.Process.Kernel Nyx.Lib Function
variable {s : Io}

theorem afterClosing_shut {p : Nat} (h : ∀ i, (s.kernel.procs p).ufdInuse i = false)
    (f : Kernel → Kernel) : s.afterClosing p f = {s with kernel := f s.kernel} := by
  have hnone : handles (s.kernel.procs p) = [] := by
    simp [handles, h]
  rw [afterClosing, closing, hnone]
  rfl

def cycle : List Sys :=
  [.process (.fork 48 128 144 160 fun _ => 0), .process (.exit 144 0), .process (.waitpid 48 0 0)]

theorem step_of_mem {sys : Sys} {self : Nat} {l : List Nat} (hcaller : sys.caller = some self)
    (htable : s.kernel.table = l) (hself : self ∈ l) : s.step sys = sys.perform s := by
  rw [step, if_pos]
  rw [hcaller, htable]
  exact fun p hp => Option.some.inj hp ▸ hself

theorem cycle_replays (h : s.kernel.Alone) (hpid : s.kernel.nextPid.setWidth 32 ≠ (0 : BitVec 32)) :
    run step s cycle =
        {s with kernel := s.kernel.replay (s.kernel.nextPid.setWidth 32) (run step s cycle).kernel} ∧
      (run step s cycle).kernel.nextPid = s.kernel.nextPid + 1 := by
  generalize hk₁ : (s.kernel.doFork 48 128 144 160 fun _ => 0).1 = k₁
  generalize hk₂ : k₁.exit 144 0 true = k₂
  have hc := h.cycled hpid hk₁ hk₂
  have hnone : shared (s.kernel.procs 48) = [] := by
    simp [shared, inheritsFd, h.shut]
  have hfork : s.step (.process (.fork 48 128 144 160 fun _ => 0)) = {s with kernel := k₁} := by
    rw [step_of_mem rfl h.table (by decide), ← hk₁]
    simp only [Sys.perform, process, doFork, hnone, ite_self, List.foldl_nil]
  have hexit : ({s with kernel := k₁} : Io).step (.process (.exit 144 0)) =
      {s with kernel := k₂} := by
    rw [step_of_mem rfl hc.born (by decide), ← hk₂]
    exact afterClosing_shut (s := {s with kernel := k₁}) hc.bare (·.exit 144 0 true)
  have hwait : ({s with kernel := k₂} : Io).step (.process (.waitpid 48 0 0)) =
      {s with kernel := k₂.reapEntry 144 2} := by
    rw [step_of_mem rfl hc.exited (by decide)]
    simp only [Sys.perform, process, doWaitpid, hc.dead]
    rw [hc.exited]
    exact afterClosing_shut (s := {s with kernel := k₂}) hc.shut _
  have hrun : run step s cycle = {s with kernel := k₂.reapEntry 144 2} := by
    rw [cycle, run, run, run, run, hfork, hexit, hwait]
  rw [hrun]
  exact ⟨congrArg (fun k => {s with kernel := k}) hc.back, hc.next⟩

/-- A process (at 48) raises its first child. -/
def firstChild : List Sys :=
  .process (.load (.loaded 32 0x400000#64 0x500000#64) 0x7FF000#64 48 64) :: cycle

def lone : Io := .after 16 firstChild

theorem alone_lone : lone.kernel.Alone :=
  ⟨by decide +kernel, by decide +kernel, by decide +kernel, by decide +kernel, by decide +kernel,
    by decide +kernel, by decide +kernel, by decide +kernel⟩

/-- The process has raised other children since, and `n` is the next pid. -/
structure Spent (n : Nat) (s : Io) : Prop where
  same : s = {lone with kernel := lone.kernel.replay (BitVec.ofNat 32 (n - 1)) s.kernel}
  next : s.kernel.nextPid = BitVec.ofNat 64 n

variable {n : Nat}

theorem Spent.alone (h : Spent n s) : s.kernel.Alone := by
  rw [h.same]
  exact alone_lone.replay _ s.kernel

theorem spent_cycle (h : Spent n s) (hn : 0 < n ∧ n < 2 ^ 32) :
    Spent (n + 1) (run step s cycle) := by
  have hpid : s.kernel.nextPid.setWidth 32 = BitVec.ofNat 32 n := by
    rw [h.next]
    simp
  have hne : s.kernel.nextPid.setWidth 32 ≠ (0 : BitVec 32) := by
    rw [hpid]
    intro h0
    have := congrArg BitVec.toNat h0
    simp at this
    omega
  obtain ⟨hsame, hnext⟩ := cycle_replays h.alone hne
  constructor
  · rw [hpid] at hsame
    generalize run step s cycle = t at hsame ⊢
    have hkernel : s.kernel.replay (BitVec.ofNat 32 n) t.kernel =
        lone.kernel.replay (BitVec.ofNat 32 n) t.kernel := by
      rw [congrArg kernel h.same]
      exact replay_replay ..
    have hrest := congrArg (fun u : Io =>
      {u with kernel := s.kernel.replay (BitVec.ofNat 32 n) t.kernel}) h.same
    exact hsame.trans (hrest.trans (by rw [hkernel]; rfl))
  · rw [hnext, h.next, BitVec.ofNat_add]
    rfl

theorem succeeds_cycle (h : s.kernel.Alone) : Admissible step Succeeds s cycle := by
  refine ⟨.inl ?_, trivial, trivial, trivial⟩
  rw [h.forks, h.table]
  exact fun he => nomatch he

theorem spent_run (m : Nat) {s : Io} (h : Spent n s) (hn : 0 < n ∧ n + m ≤ 2 ^ 32) :
    Spent (n + m) (run step s (List.replicate m cycle).flatten) ∧
      Admissible step Succeeds s (List.replicate m cycle).flatten := by
  induction m generalizing n s with
  | zero => exact ⟨h, trivial⟩
  | succ m ih =>
    have hlt : 0 < n ∧ n < 2 ^ 32 := ⟨hn.1, by omega⟩
    obtain ⟨hrest, hok⟩ := ih (spent_cycle h hlt) ⟨n.succ_pos, by omega⟩
    rw [List.replicate_succ, List.flatten_cons, run_append, admissible_append, Nat.add_comm m,
      ← Nat.add_assoc]
    exact ⟨hrest, succeeds_cycle h.alone, hok⟩

/-- The process raises children until the next pids are 0 and 1. -/
def spends : List Sys := cycle ++ (List.replicate (2 ^ 32 - 5) cycle).flatten

/-- A state with `2 ^ 32` as the next pid, up to the logs. -/
def spent (s : Io) : Io :=
  {lone with kernel := {lone.kernel.replay 0xFFFFFFFF#32 s.kernel with nextPid := 0x100000000#64}}

theorem Spent.eq (h : Spent (2 ^ 32) s) : s = spent s := by
  have hnext : s.kernel.nextPid = 0x100000000#64 := h.next
  rw [spent, ← hnext]
  exact h.same

theorem spends_lone : run step lone spends = spent (run step lone spends) ∧
    Admissible step Succeeds lone spends := by
  have hpid : lone.kernel.nextPid = 4#64 := by decide +kernel
  have hfirst : Spent 5 (run step lone cycle) := by
    obtain ⟨hsame, hnext⟩ := cycle_replays alone_lone (by rw [hpid]; decide)
    rw [hpid] at hsame hnext
    exact ⟨hsame, hnext⟩
  obtain ⟨hspent, hok⟩ := spent_run (2 ^ 32 - 5) hfirst (by decide)
  rw [spends, run_append, admissible_append]
  exact ⟨hspent.eq, succeeds_cycle alone_lone, hok⟩

/-- The process opens a pipe. Its child with the pid 0 dies as the leader of all leaders, whom
`tg_reassign_leader` gives to the task with the pid 1; the child with the pid 1 dies as the
leader of the process, which gets the child's descriptors for its own. -/
def goesRound : List Sys := .pipe 48 .good :: cycle ++ cycle

/-- All forks of the run succeed, and at its end the pipe counts two descriptors that nobody
has. -/
theorem pipe_outlives_descriptors :
    Admissible step Succeeds (boot 16) (firstChild ++ spends ++ goesRound) ∧
      ((after 16 (firstChild ++ spends ++ goesRound)).pipes 0).readRefs = 1 ∧
      ((after 16 (firstChild ++ spends ++ goesRound)).pipes 0).writeRefs = 1 ∧
      (after 16 (firstChild ++ spends ++ goesRound)).slots 0 false = 0 ∧
      (after 16 (firstChild ++ spends ++ goesRound)).slots 0 true = 0 ∧
      ¬ (after 16 (firstChild ++ spends ++ goesRound)).RefsExact := by
  have hrun : after 16 (firstChild ++ spends ++ goesRound) =
      run step (spent (run step lone spends)) goesRound := by
    rw [← spends_lone.1, after, run_append, run_append]
    rfl
  have hread : ((run step (spent (run step lone spends)) goesRound).pipes 0).readRefs = 1 := by
    decide +kernel
  have hslots : (run step (spent (run step lone spends)) goesRound).slots 0 false = 0 := by
    decide +kernel
  rw [hrun]
  refine ⟨?_, hread, by decide +kernel, hslots, by decide +kernel, fun h => ?_⟩
  · rw [admissible_append, admissible_append, run_append]
    refine ⟨⟨by decide +kernel, spends_lone.2⟩, ?_⟩
    show Admissible step Succeeds (run step lone spends) goesRound
    rw [spends_lone.1]
    decide +kernel
  · have hexact := h.readRefs 0
    rw [hread, hslots] at hexact
    cases hexact

end Nyx.Descriptors.Io
