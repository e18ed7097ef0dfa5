import Nyx.Descriptors.PipeCounts
import Nyx.Paging.Unfork

/-! `do_fork` over processes, pipes and memory together, and what it leaves when it fails.

A fork that fails before the child has a record has no effect. After that it has shared the
parent's pipe ends and copied its snapshot buffers, and a kernel stack that cannot be allocated
undoes neither: the pipes keep references no descriptor stands for. -/
namespace Nyx.Forking
open Nyx.Process Nyx.Process.Kernel Nyx.Descriptors Nyx.Paging Function

/-- The kernel's tables with the memory behind them. -/
structure Host where
  io : Io
  machine : Machine

/-- A page directory of the process layer, as an address. -/
def ptr (dir : Nat) : Ptr := BitVec.ofNat 64 dir

namespace Host

/-- `do_fork`. Where the process layer releases the child's page directory, the address space
behind it is released. -/
def doFork (h : Host) (self block stack : Nat) (bufs : Fin procMaxVmas → Nat) : Host × BitVec 32 :=
  let parent := h.io.kernel.procs self
  if parent.pageDirectory = 0 ∨ h.io.kernel.table.length ≥ maxProcesses then (h, failed)
  else
    let (m, child) := h.machine.clonePageDirectoryCow (ptr parent.pageDirectory)
    let (k, pid) := h.io.kernel.doFork self child.toNat block stack bufs
    (⟨h.io.doFork self child.toNat block stack bufs,
      if k.dirs child.toNat then m else m.freePageDirectory child⟩, pid)

end Host

/-! ### The process layer -/

section Process
variable {k : Kernel}

/-- A region with a snapshot buffer, which is copied for the child. -/
def Backed (t : Proc) (i : Fin procMaxVmas) : Prop :=
  (t.mmapVmas i).used = true ∧ (t.mmapVmas i).fileBuf ≠ 0

section Copying
variable (k : Kernel) (child : Nat) (bufs : Fin procMaxVmas → Nat)

/-- The copies change the heap and the child's record only. -/
theorem dupBufs_rest : (k.dupBufs child bufs).table = k.table ∧
    (k.dupBufs child bufs).dirs = k.dirs ∧ (k.dupBufs child bufs).nextPid = k.nextPid ∧
    ∀ q ≠ child, (k.dupBufs child bufs).procs q = k.procs q := by
  refine Lib.foldl_keeps (P := fun k' : Kernel => k'.table = k.table ∧ k'.dirs = k.dirs ∧
    k'.nextPid = k.nextPid ∧ ∀ q ≠ child, k'.procs q = k.procs q) (fun k' i hk' => ?_) _
    ⟨rfl, rfl, rfl, fun _ _ => rfl⟩
  obtain ⟨htable, hdirs, hpid, hprocs⟩ := hk'
  have hmod (q : Nat) (hq : q ≠ child) (t : Proc) : update k'.procs child t q = k.procs q :=
    (update_of_ne hq ..).trans (hprocs q hq)
  simp only [dupBuf, kmalloc]
  split_ifs
  all_goals first
    | exact ⟨htable, hdirs, hpid, hprocs⟩
    | exact ⟨htable, hdirs, hpid, fun q hq => hmod q hq _⟩

theorem dupBuf_spec (i : Fin procMaxVmas) :
    (∀ b, (dupBuf child bufs k i).heap b = true ↔
        k.heap b = true ∨ b ≠ 0 ∧ Backed (k.procs child) i ∧ bufs i = b) ∧
      ∀ j ≠ i, Backed ((dupBuf child bufs k i).procs child) j ↔ Backed (k.procs child) j := by
  rw [dupBuf]
  dsimp only
  split
  case isFalse hno =>
    have hnot : ¬ Backed (k.procs child) i := by simpa [Backed] using hno
    simp [hnot]
  case isTrue hyes =>
    have hown : Backed (k.procs child) i := by simpa [Backed] using hyes
    have hother (v : Vma) (t : Proc) (j : Fin procMaxVmas) (hj : j ≠ i) :
        Backed (setVma t i v) j ↔ Backed t j := by
      rw [Backed, setVma_mmapVmas, if_neg hj, Backed]
    rw [kmalloc]
    by_cases hfull : bufs i = 0 ∨ k.heap (bufs i) = true
    · rw [if_pos hfull, if_pos rfl]
      refine ⟨fun b => ⟨.inl, fun hb => hb.elim id ?_⟩, fun j hj => ?_⟩
      · rintro ⟨hb, -, rfl⟩
        exact hfull.resolve_left hb
      · rw [modify_procs_self]
        exact hother _ _ j hj
    · rw [if_neg hfull, if_neg (not_or.mp hfull).1]
      refine ⟨fun b => ?_, fun j hj => ?_⟩
      · simp only [Kernel.modify, update_apply]
        split
        case isTrue hb => exact iff_of_true rfl (.inr ⟨hb ▸ (not_or.mp hfull).1, hown, hb.symm⟩)
        case isFalse hb => exact ⟨.inl, fun hx => hx.resolve_right fun hy => hb hy.2.2.symm⟩
      · rw [modify_procs_self]
        exact hother _ _ j hj

/-- The blocks in use after the copies were made: those from before, and the copies. -/
theorem heap_dupBufs (b : Nat) : (k.dupBufs child bufs).heap b = true ↔
    k.heap b = true ∨ b ≠ 0 ∧ ∃ i, Backed (k.procs child) i ∧ bufs i = b := by
  have hfold (l : List (Fin procMaxVmas)) (hl : l.Nodup) : ∀ k : Kernel,
      (l.foldl (dupBuf child bufs) k).heap b = true ↔
        k.heap b = true ∨ b ≠ 0 ∧ ∃ i ∈ l, Backed (k.procs child) i ∧ bufs i = b := by
    induction l with
    | nil => simp
    | cons i rest ih =>
      intro k
      obtain ⟨hnot, hrest⟩ := List.nodup_cons.mp hl
      obtain ⟨hheap, hsame⟩ := dupBuf_spec k child bufs i
      have hlater : (∃ j ∈ rest, Backed ((dupBuf child bufs k i).procs child) j ∧ bufs j = b) ↔
          ∃ j ∈ rest, Backed (k.procs child) j ∧ bufs j = b :=
        exists_congr fun j => and_congr_right fun hj => and_congr_left fun _ =>
          hsame j fun he => hnot (he ▸ hj)
      rw [List.foldl_cons, ih hrest, hheap, hlater, or_assoc, ← and_or_left]
      simp
  rw [dupBufs, hfold _ (List.nodup_finRange _)]
  simp

end Copying

/-- What a failed fork must leave alone in the process layer. -/
structure Restored (k k' : Kernel) : Prop where
  table : k'.table = k.table
  heap : k'.heap = k.heap
  dirs : k'.dirs = k.dirs
  procs : ∀ p ∈ k.table, k'.procs p = k.procs p

theorem Restored.refl (k : Kernel) : Restored k k := ⟨rfl, rfl, rfl, fun _ _ => rfl⟩

theorem update_returned {taken : Nat → Bool} {i : Nat} (h : taken i = false) :
    update (update taken i true) i false = taken := by
  rw [update_idem, ← h, update_eq_self]

def recorded (k : Kernel) (self dir block : Nat) : Kernel :=
  { k with
    dirs := Function.update k.dirs dir true
    heap := Function.update k.heap block true
    nextPid := k.nextPid + 1
    procs := Function.update k.procs block (forkedProc (k.procs self) dir (k.nextPid.setWidth 32)) }

variable {self dir block stack : Nat} {bufs : Fin procMaxVmas → Nat}

/-- The failure points before the child has a record, with the directory that was cloned. -/
def Unrecorded (k : Kernel) (self dir block : Nat) : Prop :=
  (k.procs self).pageDirectory = 0 ∨ k.table.length ≥ maxProcesses ∨ dir = 0 ∨ block = 0 ∨
    k.heap block = true

/-- `kmalloc` gets no block at `b` once the record has been allocated. -/
def Refuses (k : Kernel) (block b : Nat) : Prop := b = 0 ∨ update k.heap block true b = true

theorem doFork_unrecorded (h : Unrecorded k self dir block) (hdir : dir ≠ 0 → k.dirs dir = false) :
    (k.doFork self dir block stack bufs).2 = failed ∧
      (k.doFork self dir block stack bufs).1.nextPid = k.nextPid ∧
      Restored k (k.doFork self dir block stack bufs).1 := by
  rw [Kernel.doFork]
  split
  case isTrue => exact ⟨rfl, rfl, .refl k⟩
  case isFalse hguard =>
    rw [not_or] at hguard
    simp only [allocPageDirectory]
    by_cases hd : dir = 0
    · simp only [hd, true_or, if_true]
      exact ⟨trivial, trivial, .refl k⟩
    have hb := ((h.resolve_left hguard.1).resolve_left hguard.2).resolve_left hd
    simp only [hd, hdir hd, newTask, kmalloc, hb, false_or, Bool.false_eq_true, if_false, if_true]
    refine ⟨trivial, ?_, ?_⟩
    · rw [freePageDirectory, if_neg hd]
    · rw [freePageDirectory, if_neg hd]
      exact ⟨rfl, rfl, update_returned (hdir hd), fun _ _ => rfl⟩

theorem doFork_recorded (h : ¬ Unrecorded k self dir block) (hdir : k.dirs dir = false) :
    k.doFork self dir block stack bufs =
      let k₁ := ((recorded k self dir block).dupBufs block bufs).increfPipes (k.procs self)
      let (k₂, ok) := k₁.initTaskStack block stack (forkedFrame (k.procs self).frame)
      if ok then
        let k₂ := k₂.modify self fun t => {t with schedManaged := true}
        let k₂ := k₂.modify block fun t => {t with schedManaged := true}
        (k₂.append block, (k₂.procs block).pid)
      else ((k₂.freePageDirectory dir 0).kfree block, failed) := by
  simp only [Unrecorded, not_or] at h
  obtain ⟨hpd, hroom, hd, hb, hfree⟩ := h
  rw [Kernel.doFork, if_neg (not_or.mpr ⟨hpd, hroom⟩)]
  simp only [allocPageDirectory, hd, hdir, newTask, kmalloc, hb, hfree,
    false_or, Bool.false_eq_true, if_false]
  rfl

theorem initTaskStack_cases (k : Kernel) (p stack : Nat) (frame : Frame) :
    k.initTaskStack p stack frame = (k, false) ∧ (stack = 0 ∨ k.heap stack = true) ∨
      (k.initTaskStack p stack frame).2 = true ∧ ¬ (stack = 0 ∨ k.heap stack = true) := by
  rw [initTaskStack, kmalloc]
  by_cases hno : stack = 0 ∨ k.heap stack = true
  · rw [if_pos hno]
    exact .inl ⟨if_pos rfl, hno⟩
  · rw [if_neg hno]
    dsimp only
    rw [if_neg (not_or.mp hno).1]
    exact .inr ⟨rfl, hno⟩

theorem initTaskStack_rest (k : Kernel) (p stack : Nat) (frame : Frame) :
    (k.initTaskStack p stack frame).1.table = k.table ∧
      (k.initTaskStack p stack frame).1.nextPid = k.nextPid :=
  have hcores := k.cores_initTaskStack p stack frame
  ⟨congrArg Cores.table hcores, congrArg Cores.nextPid hcores⟩

section Recorded
variable (h : ¬ Unrecorded k self dir block) (hdir : k.dirs dir = false)
include h hdir

theorem doFork_recorded_nextPid :
    (k.doFork self dir block stack bufs).1.nextPid = k.nextPid + 1 := by
  have hstack := (initTaskStack_rest
    (((recorded k self dir block).dupBufs block bufs).increfPipes (k.procs self)) block stack
    (forkedFrame (k.procs self).frame)).2
  have hdup := (dupBufs_rest (recorded k self dir block) block bufs).2.2.1
  rw [doFork_recorded h hdir]
  dsimp only
  split
  · exact hstack.trans hdup
  rw [freePageDirectory, kfree]
  split <;> split <;> exact hstack.trans hdup

/-- A child with a record is undone without a trace exactly if none of its snapshot buffers
could be allocated, nor its kernel stack. -/
theorem doFork_recorded_restored (hk : k.blocks.Owned) :
    (k.doFork self dir block stack bufs).2 = failed ∧
        Restored k (k.doFork self dir block stack bufs).1 ↔
      (∀ i, Backed (k.procs self) i → Refuses k block (bufs i)) ∧ Refuses k block stack := by
  rw [doFork_recorded h hdir]
  simp only [Unrecorded, not_or, Bool.not_eq_true] at h
  obtain ⟨_, _, hd, hb, hfree⟩ := h
  have hheap := heap_dupBufs (recorded k self dir block) block bufs
  have hrest := dupBufs_rest (recorded k self dir block) block bufs
  generalize (recorded k self dir block).dupBufs block bufs = k₁ at hheap hrest
  have hback : ∀ i, Backed ((recorded k self dir block).procs block) i ↔ Backed (k.procs self) i := by
    intro i
    rw [recorded]
    simp only [update_self]
    rfl
  simp only [hback] at hheap
  obtain ⟨htable, hdirs, -, hprocs⟩ := hrest
  rcases initTaskStack_cases (k₁.increfPipes (k.procs self)) block stack
    (forkedFrame (k.procs self).frame) with ⟨hstk, hno⟩ | ⟨hok, hgot⟩
  · dsimp only
    rw [hstk]
    simp only [Bool.false_eq_true, if_false, true_and]
    rw [freePageDirectory, if_neg hd, kfree, if_neg hb]
    constructor
    · intro hr
      have hrefuses (b : Nat) (hin : b = 0 ∨ k₁.heap b = true) : Refuses k block b := by
        refine hin.imp_right fun hin => ?_
        by_cases hbb : b = block
        · rw [hbb, update_self]
        · rw [update_of_ne hbb, ← hr.heap]
          exact (update_of_ne hbb ..).trans hin
      exact ⟨fun i hi => hrefuses _ (or_iff_not_imp_left.mpr fun hz =>
        (hheap _).mpr (.inr ⟨hz, i, hi, rfl⟩)), hrefuses stack hno⟩
    · rintro ⟨hcopies, -⟩
      have hsame : k₁.heap = update k.heap block true := by
        funext b
        refine Bool.eq_iff_iff.mpr ((hheap b).trans ⟨fun hx => hx.elim id ?_, .inl⟩)
        rintro ⟨hz, i, hi, rfl⟩
        exact (hcopies i hi).resolve_left hz
      refine ⟨htable, ?_, ?_, fun p hp => ?_⟩
      · exact (congrArg (update · block false) hsame).trans (update_returned hfree)
      · exact (congrArg (fun f : Nat → Bool => update f dir false) hdirs).trans (update_returned hdir)
      · have hne : p ≠ block := by
          rintro rfl
          exact Bool.false_ne_true (hfree.symm.trans (heap_of_mem hk hp))
        exact (hprocs p hne).trans (update_of_ne hne ..)
  · constructor
    · rintro ⟨-, hr⟩
      have hlen := congrArg List.length hr.table
      simp only [hok, if_true, append, modify_table] at hlen
      rw [List.length_append, (initTaskStack_rest ..).1,
        show (k₁.increfPipes _).table = k.table from htable] at hlen
      exact absurd hlen (Nat.succ_ne_self _)
    · rintro ⟨-, hstack⟩
      exact absurd (hstack.imp_right fun hin => (hheap stack).mpr (.inl hin)) hgot

end Recorded

end Process

/-! ### The whole fork -/

namespace Host

/-- The process layer and the memory tell the same story: the page directories of the tasks
are the address spaces of the account, and the tasks own their records. -/
structure Consistent (h : Host) (d : Set Ptr) (x : Ptr → Nat) : Prop where
  ledger : Ledger h.machine d x
  dirs : ∀ n, h.io.kernel.dirs n = true ↔ ∃ p ∈ d, p.toNat = n
  spaces : ∀ p ∈ h.io.kernel.table, (h.io.kernel.procs p).pageDirectory ≠ 0 →
    h.io.kernel.dirs (h.io.kernel.procs p).pageDirectory = true
  owned : h.io.kernel.blocks.Owned

/-- What a failed fork may not change. -/
structure Unchanged (h h' : Host) : Prop where
  pipes : h'.io.pipes = h.io.pipes
  kernel : Restored h.io.kernel h'.io.kernel
  refs : ∀ f, IsFrame f → h.machine.refs f < 255 → h'.machine.refs f = h.machine.refs f
  freePages : h'.machine.frames.freePages = h.machine.frames.freePages

def space (h : Host) (self : Nat) : Ptr := ptr (h.io.kernel.procs self).pageDirectory

def cloned (h : Host) (self : Nat) : Machine × Ptr :=
  h.machine.clonePageDirectoryCow (h.space self)

/-- No counter below 255 is driven past it by the pages a fork of `self` shares. A frame whose
counter is at 255 already is pinned, or is not shared. -/
def Room (h : Host) (self : Nat) : Prop :=
  ∀ f, IsFrame f → h.machine.pinned f = true ∧ h.machine.refs f = 255 ∨
    (h.machine.refs f : ℕ∞) +
      {v : Vpn | h.machine.frameAt (h.space self) v.path = some f}.encard ≤ 255

variable {h : Host} {d : Set Ptr} {x : Ptr → Nat} {self block stack : Nat}
  {bufs : Fin procMaxVmas → Nat}

theorem Consistent.parent (hc : h.Consistent d x) (hself : self ∈ h.io.kernel.table)
    (hpd : (h.io.kernel.procs self).pageDirectory ≠ 0) :
    h.space self ∈ d := by
  obtain ⟨p, hp, hn⟩ := (hc.dirs _).mp (hc.spaces self hself hpd)
  rw [space, ptr, ← hn, BitVec.ofNat_toNat, BitVec.setWidth_eq]
  exact hp

theorem Consistent.fresh (hc : h.Consistent d x) {q : Ptr} (hq : q ∉ d) :
    h.io.kernel.dirs q.toNat = false := by
  rw [← Bool.not_eq_true, hc.dirs]
  rintro ⟨p, hp, hn⟩
  exact hq (BitVec.toNat_inj.mp hn ▸ hp)

/-- Memory after a fork was undone. -/
theorem Consistent.unforked (hc : h.Consistent d x) (hroom : h.Room self) {m : Machine}
    (hm : Unforked False d x (h.space self) h.machine m) :
    (∀ f, IsFrame f → h.machine.refs f < 255 → m.refs f = h.machine.refs f) ∧
      m.frames.freePages = h.machine.frames.freePages := by
  obtain ⟨boot, hb⟩ := hc.ledger.sound
  refine ⟨fun f hf hlt => hm.refs f hf fun _ => (hroom f hf).resolve_left fun hx => ?_, ?_⟩
  · exact absurd hx.2 (Nat.ne_of_lt hlt)
  refine freePages_eq hb (hm.moves.coherent hc.ledger hb) fun f hf => ?_
  cases hp : h.machine.pinned f with
  | false => rw [hm.refs f hf fun hx => absurd (hp.symm.trans hx) Bool.false_ne_true]
  | true =>
    -- a pinned frame keeps a reference
    exact iff_of_false ((hm.moves.ledger hc.ledger).pinned f hf (hm.pinned ▸ hp))
      (hc.ledger.pinned f hf hp)

theorem kernel_doFork {s : Io} {dir : Nat} : (s.doFork self dir block stack bufs).kernel =
    (s.kernel.doFork self dir block stack bufs).1 :=
  Lib.foldl_view Io.kernel (by intro s hd; rfl) _ _

theorem refs_increfs (l : List (BitVec 32)) : ∀ (s : Io) (id : Fin maxPipes) (w : Bool),
    (s.pipes id).refs w ≤ ((l.foldl Io.pipeIncref s).pipes id).refs w := by
  induction l with
  | nil => exact fun _ _ _ => Nat.le_refl _
  | cons hd rest ih =>
    intro s id w
    refine Nat.le_trans ?_ (ih (s.pipeIncref hd) id w)
    show _ ≤ (s.pipes.pipeIncref (ufdPipeId hd) (ufdPipeIsWrite hd) id).refs w
    rw [Pipes.pipeIncref_eq]
    split
    case isTrue hn => exact (Pipe.addRef_counts hn.2 _ w).2 ▸ Nat.le_add_right ..
    case isFalse => exact Nat.le_refl _

/-- Sharing changes the pipes unless none of the handles is of a pipe in use. -/
theorem pipes_increfs (l : List (BitVec 32)) : ∀ s : Io, (l.foldl Io.pipeIncref s).pipes = s.pipes ↔
    ∀ hd ∈ l, s.pipes.lookup (ufdPipeId hd) = none := by
  induction l with
  | nil => simp
  | cons hd rest ih =>
    intro s
    have hkeeps (hnone : s.pipes.lookup (ufdPipeId hd) = none) :
        (s.pipeIncref hd).pipes = s.pipes := by
      show s.pipes.pipeIncref _ _ = s.pipes
      rw [Pipes.pipeIncref, hnone]
    rw [List.foldl_cons, List.forall_mem_cons]
    constructor
    · intro heq
      cases hid : s.pipes.lookup (ufdPipeId hd) with
      | none =>
        rw [← hkeeps hid] at heq
        exact ⟨rfl, hkeeps hid ▸ (ih _).mp heq⟩
      | some id =>
        -- the count of this end has grown
        have hn := (s.pipes.lookup_eq _ id).mp hid
        have hle := refs_increfs rest (s.pipeIncref hd) id (ufdPipeIsWrite hd)
        have hone : (s.pipeIncref hd).pipes id = (s.pipes id).addRef (ufdPipeIsWrite hd) :=
          (s.pipes.pipeIncref_eq ..).trans (if_pos hn)
        rw [heq, hone, (Pipe.addRef_counts hn.2 _ _).2, if_pos rfl] at hle
        exact absurd hle (Nat.not_succ_le_self _)
    · rintro ⟨hnone, hrest⟩
      rw [(ih _).mpr (hkeeps hnone ▸ hrest), hkeeps hnone]

/-- What the clone shared is given back: by the clone itself where it fails, and with the
child's address space otherwise. -/
def Undone (h : Host) (d : Set Ptr) (x : Ptr → Nat) (self : Nat) (r : Machine × Ptr) : Prop :=
  r.2 = 0#64 ∧ Unforked False d x (h.space self) h.machine r.1 ∨
    r.2 ∉ d ∧ Unforked False d x (h.space self) h.machine (r.1.freePageDirectory r.2)

theorem Consistent.clone_undone (hc : h.Consistent d x) (hpd : h.space self ∈ d)
    (hroom : h.Room self) : h.Undone d x self (h.cloned self) := by
  rcases clonePageDirectoryCow_cases hc.ledger False.elim hpd with
    hover | ⟨hz, href⟩ | ⟨D, q, m', hz, hcop, _, heq⟩ | hcop
  · obtain ⟨⟨f, hf, hpin, hmany⟩, _⟩ := hover
    rcases hroom f hf with hfull | hle
    · exact absurd (hpin.symm.trans hfull.1) Bool.false_ne_true
    · exact absurd hle (not_le.mpr hmany)
  · exact .inl ⟨hz, href.unforked⟩
  · exact .inl ⟨hz, heq ▸ hcop.unforked hc.ledger⟩
  · exact .inr ⟨hcop.new, hcop.unforked hc.ledger⟩

section Undone
variable {r : Machine × Ptr} (hr : h.Undone d x self r) (hc : h.Consistent d x)
include hr hc

theorem Undone.fresh (hne : r.2.toNat ≠ 0) : h.io.kernel.dirs r.2.toNat = false := by
  rcases hr with ⟨hz, _⟩ | ⟨hnew, _⟩
  · exact absurd (congrArg BitVec.toNat hz) hne
  · exact hc.fresh hnew

/-- Where the process layer and the pipes are as before, memory is too. -/
theorem Undone.unchanged (hroom : h.Room self)
    (hrest : Restored h.io.kernel (h.io.kernel.doFork self r.2.toNat block stack bufs).1)
    (hpipes : (h.io.doFork self r.2.toNat block stack bufs).pipes = h.io.pipes) :
    h.Unchanged ⟨h.io.doFork self r.2.toNat block stack bufs,
      if (h.io.kernel.doFork self r.2.toNat block stack bufs).1.dirs r.2.toNat then r.1
        else r.1.freePageDirectory r.2⟩ := by
  have hmem : Unforked False d x (h.space self) h.machine
      (if (h.io.kernel.doFork self r.2.toNat block stack bufs).1.dirs r.2.toNat then r.1
        else r.1.freePageDirectory r.2) := by
    rcases hr with ⟨hz, hun⟩ | ⟨hnew, hun⟩
    · rwa [hz, Machine.freePageDirectory, if_pos rfl, ite_self]
    · rwa [hrest.dirs, hc.fresh hnew, if_neg Bool.false_ne_true]
  obtain ⟨hrefs, hfree⟩ := hc.unforked hroom hmem
  exact ⟨hpipes, kernel_doFork ▸ hrest, hrefs, hfree⟩

end Undone

theorem doFork_cloned (hguard : ¬ ((h.io.kernel.procs self).pageDirectory = 0 ∨
    h.io.kernel.table.length ≥ maxProcesses)) :
    h.doFork self block stack bufs =
      (⟨h.io.doFork self (h.cloned self).2.toNat block stack bufs,
        if (h.io.kernel.doFork self (h.cloned self).2.toNat block stack bufs).1.dirs
          (h.cloned self).2.toNat then (h.cloned self).1
        else (h.cloned self).1.freePageDirectory (h.cloned self).2⟩,
        (h.io.kernel.doFork self (h.cloned self).2.toNat block stack bufs).2) := by
  rw [doFork, if_neg hguard, cloned, space]

/-- A process (at 48) opens a pipe. -/
def opensPipe : List Sys :=
  [.process (.load (.loaded 0x1000 0x400000#64 0x500000#64) 0x7FF000#64 48 64), .pipe 48 .good]

def hosting (m : Machine) : Host := ⟨Io.after 16 opensPipe, m⟩

def piped : Host := hosting Machine.small.allocPageDirectory.1

theorem hosting_machine (m : Machine) : (hosting m).machine = m := rfl

theorem piped_machine : piped.machine = Machine.small.allocPageDirectory.1 := by
  rw [piped, hosting_machine]

theorem small_account : Ledger Machine.small ∅ Machine.small.refs :=
  .nowhere Machine.sound_small fun _ => rfl

theorem piped_opened : Opened ∅ Machine.small piped.machine 0x1000#64 ∧ ∀ strict : Prop,
      Moves strict ⟨Machine.small, ∅, Machine.small.refs⟩
        ⟨piped.machine, {0x1000#64}, Machine.small.refs⟩ := by
  have hdir : Machine.small.allocPageDirectory.2 = 0x1000#64 := by decide +kernel
  rw [piped_machine]
  rcases allocPageDirectory_cases small_account with ⟨hnull, _⟩ | hopened
  · exact absurd (hdir.symm.trans hnull) (by decide)
  · rwa [hdir, insert_empty_eq] at hopened

theorem piped_owned : piped.io.kernel.blocks.Owned :=
  (Lib.run_invariant (P := fun s => Io.Tally [] s) (fun _ _ ht hc => Io.tally_step ht hc.1 hc.2)
    (Io.boot 16) opensPipe (Io.tally_boot 16)
    (by decide +kernel : Lib.Admissible Io.step Io.Counted (Io.boot 16) opensPipe)).owned

theorem piped_dirs (n : Nat) : piped.io.kernel.dirs n = true ↔ n = 0x1000 := by
  show update (fun _ => false) 0x1000 true n = true ↔ n = 0x1000
  rw [update_apply]
  split
  case isTrue hn => exact iff_of_true rfl hn
  case isFalse hn => exact iff_of_false Bool.false_ne_true hn

theorem piped_ledger : Ledger piped.machine {0x1000#64} Machine.small.refs := by
  obtain ⟨_, hmoves⟩ := piped_opened
  have hsmall := small_account
  generalize piped.machine = m', Machine.small = m at hmoves hsmall ⊢
  exact (hmoves True).ledger hsmall

theorem piped_spaces (p : Nat) (hp : p ∈ piped.io.kernel.table)
    (hne : (piped.io.kernel.procs p).pageDirectory ≠ 0) :
    piped.io.kernel.dirs (piped.io.kernel.procs p).pageDirectory = true := by
  have htable : piped.io.kernel.table = [16, 48] := by decide +kernel
  have hdir : ∀ p ∈ [16, 48], (piped.io.kernel.procs p).pageDirectory ≠ 0 →
      (piped.io.kernel.procs p).pageDirectory = 0x1000 := by decide +kernel
  rw [htable] at hp
  rw [piped_dirs]
  exact hdir p hp hne

theorem piped_consistent : piped.Consistent {0x1000#64} Machine.small.refs :=
  ⟨piped_ledger, fun n => by rw [piped_dirs]; simp [eq_comm], piped_spaces, piped_owned⟩

theorem piped_room : piped.Room 48 := by
  have hdir : piped.space 48 = 0x1000#64 := by decide +kernel
  intro f _
  have hnone : {v : Vpn | piped.machine.frameAt (piped.space 48) v.path = some f} = ∅ := by
    ext v
    rw [Set.mem_ofPred_eq, hdir, piped.machine.frameAt_path, piped_opened.1.empty v, has_zero]
    simp
  rw [hnone, Set.encard_empty, add_zero]
  exact .inr (by exact_mod_cast Nat.le_of_lt_succ (piped.machine.refs_lt f))

end Host

end Nyx.Forking
