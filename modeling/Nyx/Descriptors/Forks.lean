import Nyx.Descriptors.Heirs

/-! What a forked child gets from its thread group.

The heap window, the regions and the descriptors of a group are those of its leader
(`tg_leader`); a thread's own fields are a snapshot from its creation and an empty descriptor
table. `do_fork` copies the fields of the task that calls it. -/
namespace Nyx.Process
open Nyx.Lib Function

/-- The bytes of the heap's blocks. -/
abbrev Contents := Nat → Nat → BitVec 8

variable (m : Contents)

def memcpy (dst src n : Nat) : Contents :=
  Function.update m dst fun o => if o < n then m src o else m dst o

/-- The file bytes a region is filled from; the rest of it reads as zeroes. -/
def Vma.file (v : Vma) : List (BitVec 8) :=
  if v.fileBuf = 0 then [] else (List.range v.fileSize.toNat).map (m v.fileBuf)

structure Region where
  start : BitVec 64
  stop : BitVec 64
  prot : BitVec 32
  file : List (BitVec 8)

/-- What a thread group shares, read off the record `t`. -/
@[ext] structure Shared where
  heapStart : BitVec 64
  programBreak : BitVec 64
  regions : Set Region
  pipes : Set (Fin procMaxFds × BitVec 32)

def Proc.shared (t : Proc) : Shared where
  heapStart := t.heapStart
  programBreak := t.programBreak
  regions := {r | ∃ i, (t.mmapVmas i).used = true ∧
    r = ⟨(t.mmapVmas i).start, (t.mmapVmas i).stop, (t.mmapVmas i).prot, (t.mmapVmas i).file m⟩}
  pipes := {e | Kernel.inheritsFd t e.1 = true ∧ e.2 = t.ufdHandle e.1}

namespace Kernel

/-- `dupBuf` with the bytes it copies. -/
def copyBuf (child : Nat) (bufs : Fin procMaxVmas → Nat) (s : Kernel × Contents)
    (i : Fin procMaxVmas) : Kernel × Contents :=
  let v := (s.1.procs child).mmapVmas i
  let nb := (s.1.kmalloc (bufs i)).2
  (dupBuf child bufs s.1 i,
    if v.used && v.fileBuf != 0 && nb != 0 then memcpy s.2 nb v.fileBuf v.fileSize.toNat else s.2)

/-- The contents of the heap when `do_fork` has copied the caller's snapshot buffers. -/
def forkContents (k : Kernel) (m : Contents) (self dirChoice block : Nat)
    (bufs : Fin procMaxVmas → Nat) : Contents :=
  let (k', dir) := k.allocPageDirectory dirChoice
  let (k', child) := k'.newTask block (forkedProc (k.procs self) dir)
  ((List.finRange procMaxVmas).foldl (copyBuf child bufs) (k', m)).2

end Kernel

/-! ### Copying a snapshot -/

section Copying
variable {m : Contents} {v : Vma} {dst n : Nat}

theorem Vma.file_memcpy_of_ne {src : Nat} (h : v.fileBuf ≠ dst) :
    v.file (memcpy m dst src n) = v.file m := by
  simp only [file, memcpy]
  rw [update_of_ne h]

theorem Vma.file_memcpy (hv : v.fileBuf ≠ 0) (hdst : dst ≠ 0) :
    {v with fileBuf := dst}.file (memcpy m dst v.fileBuf v.fileSize.toNat) = v.file m := by
  simp only [file, memcpy]
  rw [if_neg hv, if_neg hdst, update_self]
  apply List.map_congr_left
  intro o ho
  exact if_pos (List.mem_range.mp ho)

end Copying

namespace Kernel

/-- The child's regions while its buffers are duplicated: those of the caller `t`, with the
bytes its buffers held in `m` unless a copy failed. -/
structure Copied (m : Contents) (t : Proc) (child : Nat) (s : Kernel × Contents) : Prop where
  same : ∀ i, ((s.1.procs child).mmapVmas i).used = (t.mmapVmas i).used ∧
    ((s.1.procs child).mmapVmas i).start = (t.mmapVmas i).start ∧
    ((s.1.procs child).mmapVmas i).stop = (t.mmapVmas i).stop ∧
    ((s.1.procs child).mmapVmas i).prot = (t.mmapVmas i).prot
  file : ∀ i, (((s.1.procs child).mmapVmas i).fileBuf = 0 → (t.mmapVmas i).fileBuf = 0) →
    ((s.1.procs child).mmapVmas i).file s.2 = (t.mmapVmas i).file m
  live : ∀ i, ((s.1.procs child).mmapVmas i).fileBuf ≠ 0 →
    s.1.heap ((s.1.procs child).mmapVmas i).fileBuf = true

variable {m m' : Contents} {t : Proc} {child : Nat} {k : Kernel}

section
variable (h : Copied m t child (k, m'))
include h

variable (bufs : Fin procMaxVmas → Nat) (i : Fin procMaxVmas)

/-- The copy of one region fails: it degrades to zero-fill. -/
theorem copied_degrade : Copied m t child (k.modify child
      (setVma · i {(k.procs child).mmapVmas i with fileBuf := 0, fileSize := 0}), m') := by
  refine ⟨fun j => ?_, fun j hj => ?_, fun j hj => ?_⟩
  all_goals simp only [modify_procs_self, setVma_mmapVmas] at *
  · split
    case isTrue he => exact he ▸ h.same i
    case isFalse => exact h.same j
  · split at hj
    case isTrue he =>
      rw [if_pos he]
      simp only [Vma.file, if_pos, hj rfl]
    case isFalse he =>
      rw [if_neg he]
      exact h.file j hj
  · split at hj
    · exact absurd rfl hj
    case isFalse he =>
      rw [if_neg he]
      exact h.live j hj

/-- The buffer of one region is copied to the block `nb`, which was free. -/
theorem copied_copy {i : Fin procMaxVmas} {nb : Nat}
    (hbuf : ((k.procs child).mmapVmas i).fileBuf ≠ 0) (hnb : nb ≠ 0) (hfree : k.heap nb = false) :
    Copied m t child ({k with heap := update k.heap nb true}.modify child
        (setVma · i {(k.procs child).mmapVmas i with fileBuf := nb}),
        memcpy m' nb ((k.procs child).mmapVmas i).fileBuf
          ((k.procs child).mmapVmas i).fileSize.toNat) := by
  have hother (j : Fin procMaxVmas) (hj : ((k.procs child).mmapVmas j).fileBuf ≠ 0) :
      ((k.procs child).mmapVmas j).fileBuf ≠ nb := by
    intro he
    have hlive : k.heap _ = true := h.live j hj
    rw [he, hfree] at hlive
    cases hlive
  refine ⟨fun j => ?_, fun j hj => ?_, fun j hj => ?_⟩
  all_goals simp only [modify_procs_self, setVma_mmapVmas] at *
  · split
    case isTrue he => exact he ▸ h.same i
    case isFalse => exact h.same j
  · split at hj
    case isTrue he =>
      rw [if_pos he, Vma.file_memcpy hbuf hnb, he]
      exact h.file i fun hz => absurd hz hbuf
    case isFalse he =>
      rw [if_neg he]
      refine Eq.trans ?_ (h.file j hj)
      by_cases hz : ((k.procs child).mmapVmas j).fileBuf = 0
      · simp only [Vma.file, if_pos hz]
      · exact Vma.file_memcpy_of_ne (hother j hz)
  · split at hj
    case isTrue he =>
      rw [if_pos he]
      exact update_self ..
    case isFalse he =>
      rw [if_neg he]
      exact (update_of_ne (hother j hj) ..).trans (h.live j hj)

theorem copied_copyBuf : Copied m t child (copyBuf child bufs (k, m') i) := by
  simp only [copyBuf, dupBuf]
  cases hown : ((k.procs child).mmapVmas i).used && ((k.procs child).mmapVmas i).fileBuf != 0 with
  | false => exact h
  | true =>
    have hbuf : ((k.procs child).mmapVmas i).fileBuf ≠ 0 := by
      simp only [Bool.and_eq_true, bne_iff_ne] at hown
      exact hown.2
    by_cases hfull : bufs i = 0 ∨ k.heap (bufs i) = true
    · rw [show k.kmalloc (bufs i) = (k, 0) from if_pos hfull]
      exact copied_degrade h i
    rw [show k.kmalloc (bufs i) = (_, bufs i) from if_neg hfull]
    rw [not_or, Bool.not_eq_true] at hfull
    simp only [if_neg hfull.1, bne_iff_ne.mpr hfull.1, Bool.and_self, if_true]
    exact copied_copy h hbuf hfull.1 hfull.2

theorem copied_foldl (l : List (Fin procMaxVmas)) :
    Copied m t child (l.foldl (copyBuf child bufs) (k, m')) :=
  l.foldlRecOn (motive := Copied m t child) _ h fun _ hs i _ => copied_copyBuf hs bufs i

end

theorem foldl_copyBuf_fst (child : Nat) (bufs : Fin procMaxVmas → Nat) (s : Kernel × Contents)
    (l : List (Fin procMaxVmas)) :
    (l.foldl (copyBuf child bufs) s).1 = l.foldl (dupBuf child bufs) s.1 :=
  (List.foldl_hom Prod.fst fun _ _ => rfl).symm

/-- The loop changes nothing but the regions. -/
theorem dupBufs_field {α : Type} (g : Proc → α) (hg : ∀ u i v, g (setVma u i v) = g u)
    (bufs : Fin procMaxVmas → Nat) :
    g ((k.dupBufs child bufs).procs child) = g (k.procs child) := by
  refine foldl_view (fun k : Kernel => g (k.procs child)) (fun k i => ?_) k _
  simp only [dupBuf]
  split
  · split <;> rw [modify_procs_self, hg, kmalloc_procs]
  · rfl

theorem Copied.regions {s : Kernel × Contents} (h : Copied m t child s)
    (hbufs : ∀ i, ((s.1.procs child).mmapVmas i).fileBuf = 0 → (t.mmapVmas i).fileBuf = 0) :
    ((s.1.procs child).shared s.2).regions = (t.shared m).regions := by
  apply Set.ext
  intro r
  refine exists_congr fun i => ?_
  obtain ⟨hused, hstart, hstop, hprot⟩ := h.same i
  rw [hused, hstart, hstop, hprot, h.file i (hbufs i)]

/-- The record of the child, in the words of the caller. -/
def childTask (k : Kernel) (self dirChoice block : Nat) : Kernel × Nat :=
  (k.allocPageDirectory dirChoice).1.newTask block
    (forkedProc (k.procs self) (k.allocPageDirectory dirChoice).2)

theorem newTask_block {block : Nat} {fill : BitVec 32 → Proc}
    (hp : (k.newTask block fill).2 ≠ 0) : (k.newTask block fill).2 = block := by
  simp only [newTask, kmalloc] at hp ⊢
  split at hp
  · exact absurd rfl hp
  · split <;> simp_all

variable {self dirChoice block stack : Nat} {bufs : Fin procMaxVmas → Nat}

theorem doFork_child {α : Type} (hok : (k.doFork self dirChoice block stack bufs).2 ≠ failed)
    (g : Proc → α) (hsched : ∀ t, g {t with schedManaged := true} = g t)
    (hstack : ∀ t stk frame, g {t with kernelStack := stk, frame := frame} = g t) :
    (k.childTask self dirChoice block).2 ≠ 0 ∧
      g ((k.doFork self dirChoice block stack bufs).1.procs block) =
        g (((k.childTask self dirChoice block).1.dupBufs block bufs).procs block) := by
  simp only [doFork] at hok ⊢
  split at hok
  · exact absurd rfl hok
  case isFalse hfull =>
    split at hok
    · exact absurd rfl hok
    case isFalse hdir =>
      split at hok
      · exact absurd rfl hok
      case isFalse hchild =>
        rw [if_neg hfull, if_neg hdir, if_neg hchild]
        have hblock := newTask_block hchild
        rw [hblock] at hok ⊢
        split at hok
        case isTrue hs =>
          rw [if_pos hs]
          refine ⟨hchild, ?_⟩
          refine (modify_field _ _ _ g hsched _).trans ((modify_field _ _ _ g hsched _).trans ?_)
          simp only [initTaskStack] at hs ⊢
          split at hs
          · cases hs
          case isFalse hstk =>
            rw [if_neg hstk]
            refine (modify_field _ _ _ g (fun t => hstack t _ _) _).trans ?_
            rw [kmalloc_procs]
            rfl
        · exact absurd rfl hok

theorem newTask_heap {block b : Nat} {fill : BitVec 32 → Proc} (hb : k.heap b = true) :
    (k.newTask block fill).1.heap b = true := by
  have hkept : (k.kmalloc block).1.heap b = true := by
    simp only [kmalloc]
    split
    · exact hb
    show update k.heap block true b = true
    rw [update_apply]
    split
    · rfl
    · exact hb
  simp only [newTask]
  split <;> exact hkept

theorem childTask_procs {self dirChoice block : Nat}
    (hchild : (k.childTask self dirChoice block).2 ≠ 0) :
    ∃ dir pid, (k.childTask self dirChoice block).1.procs block =
      forkedProc (k.procs self) dir pid := by
  obtain ⟨pid, hprocs⟩ := newTask_procs hchild
  rw [newTask_block hchild] at hprocs
  exact ⟨_, pid, hprocs⟩

/-- The loop starts with the caller's regions, whose buffers are allocated. -/
theorem copied_childTask (m : Contents) {self dirChoice block : Nat} (hk : k.blocks.Owned)
    (hself : self ∈ k.table) (hchild : (k.childTask self dirChoice block).2 ≠ 0) :
    Copied m (k.procs self) block ((k.childTask self dirChoice block).1, m) := by
  obtain ⟨dir, pid, hprocs⟩ := childTask_procs hchild
  have hregions : ((k.childTask self dirChoice block).1.procs block).mmapVmas =
      (k.procs self).mmapVmas := (congrArg Proc.mmapVmas hprocs :)
  refine ⟨fun i => ?_, fun i _ => ?_, fun i hi => ?_⟩
  · dsimp only
    rw [hregions]
    exact ⟨rfl, rfl, rfl, rfl⟩
  · dsimp only
    rw [hregions]
  · dsimp only at hi ⊢
    rw [hregions] at hi ⊢
    have hlive : k.heap ((k.procs self).mmapVmas i).fileBuf = true :=
      hk.owns.exclusive.live (.buf self i) hself hi
    refine newTask_heap ?_
    rw [show (k.allocPageDirectory dirChoice).1.heap = k.heap from
      congrArg Blocks.heap (k.blocks_allocPageDirectory dirChoice)]
    exact hlive

/-- The pipe ends of the child's record are the caller's. -/
theorem pipes_forkedProc (dir : Nat) (pid : BitVec 32) :
    ((forkedProc t dir pid).shared m).pipes = (t.shared m).pipes := by
  have hends (i : Fin procMaxFds) : inheritsFd (forkedProc t dir pid) i = inheritsFd t i := by
    show (inheritsFd t i && (if inheritsFd t i then t.ufdHandle i else 0) &&& ufdPipeFlag != 0#32) =
      inheritsFd t i
    cases hi : inheritsFd t i with
    | false => rfl
    | true =>
      simp only [inheritsFd, Bool.and_eq_true] at hi
      exact hi.2
  apply Set.ext
  intro e
  show inheritsFd (forkedProc t dir pid) e.1 = true ∧
      e.2 = (if inheritsFd t e.1 then t.ufdHandle e.1 else 0) ↔
    inheritsFd t e.1 = true ∧ e.2 = t.ufdHandle e.1
  rw [hends]
  refine and_congr_right fun hi => ?_
  rw [if_pos hi]

/-- The child of `do_fork` has what its caller has, once every copy succeeded. -/
theorem shared_doFork (m : Contents) {self dirChoice block stack : Nat}
    {bufs : Fin procMaxVmas → Nat} (hk : k.blocks.Owned) (hself : self ∈ k.table)
    (hok : (k.doFork self dirChoice block stack bufs).2 ≠ failed)
    (hbufs : ∀ i, (((k.doFork self dirChoice block stack bufs).1.procs block).mmapVmas i).fileBuf
      = 0 → ((k.procs self).mmapVmas i).fileBuf = 0) :
    ((k.doFork self dirChoice block stack bufs).1.procs block).shared
      (k.forkContents m self dirChoice block bufs) = (k.procs self).shared m := by
  obtain ⟨hchild, hshared⟩ := doFork_child hok
    (Proc.shared (k.forkContents m self dirChoice block bufs)) (fun _ => rfl) fun _ _ _ => rfl
  have hvmas := (doFork_child hok Proc.mmapVmas (fun _ => rfl) fun _ _ _ => rfl).2
  obtain ⟨dir, pid, hprocs⟩ := childTask_procs hchild
  have hcontents : k.forkContents m self dirChoice block bufs =
      ((List.finRange procMaxVmas).foldl (copyBuf block bufs)
        ((k.childTask self dirChoice block).1, m)).2 := by
    simp only [forkContents]
    rw [newTask_block hchild]
    rfl
  have hcopied := copied_foldl (copied_childTask m hk hself hchild) bufs (List.finRange procMaxVmas)
  have hkernel := foldl_copyBuf_fst block bufs
    ((k.childTask self dirChoice block).1, m) (List.finRange procMaxVmas)
  rw [hvmas] at hbufs
  rw [hshared, hcontents]
  apply Shared.ext
  · exact (dupBufs_field Proc.heapStart (fun _ _ _ => rfl) bufs).trans
      (congrArg Proc.heapStart hprocs :)
  · exact (dupBufs_field Proc.programBreak (fun _ _ _ => rfl) bufs).trans
      (congrArg Proc.programBreak hprocs :)
  · have hregions := hcopied.regions (by rw [hkernel]; exact hbufs)
    rw [hkernel] at hregions
    exact hregions
  · refine (dupBufs_field (fun t => (t.shared m).pipes) (fun _ _ _ => rfl) bufs).trans ?_
    rw [hprocs]
    exact pipes_forkedProc dir pid

end Kernel

/-- A successful fork whose copies all succeed duplicates the group exactly when the caller's
own fields agree with its leader's, as those of a leader do. -/
theorem fork_duplicates_group_iff (k : Kernel) (m : Contents) (self dirChoice block stack : Nat)
    (bufs : Fin procMaxVmas → Nat) (hk : k.blocks.Owned) (hself : self ∈ k.table)
    (hok : (k.doFork self dirChoice block stack bufs).2 ≠ Kernel.failed)
    (hbufs : ∀ i, (((k.doFork self dirChoice block stack bufs).1.procs block).mmapVmas i).fileBuf
      = 0 → ((k.procs self).mmapVmas i).fileBuf = 0) :
    ((k.doFork self dirChoice block stack bufs).1.procs block).shared
        (k.forkContents m self dirChoice block bufs) = (k.procs (k.tgLeader self)).shared m ↔
      (k.procs self).shared m = (k.procs (k.tgLeader self)).shared m := by
  rw [Kernel.shared_doFork m hk hself hok hbufs]

/-- A process (at 48) with a mapped file (its snapshot at 112) and a thread (at 80). -/
def mapsFile : List Op :=
  [.load (.loaded 32 0x400000#64 0x500000#64) 0x7FF000#64 48 64,
    .clone 48 0x400000#64 0x600000#64 0 0x100#64 80 96,
    .mmap 48 4096#64 3#32 ⟨5#32, 100#32, 0#32⟩ 112 true]

/-- The leader forks: the child (at 144) has the region, with the file's bytes in a buffer of
its own (at 176). -/
theorem leader_fork_duplicates :
    (((after 16 mapsFile).doFork 48 128 144 160 fun _ => 176).1.procs 144).shared
        ((after 16 mapsFile).forkContents (fun _ _ => 7) 48 128 144 fun _ => 176) =
      ((after 16 mapsFile).procs 48).shared fun _ _ => 7 := by
  have hleader : (after 16 mapsFile).tgLeader 48 = 48 := by decide +kernel
  have hiff := fork_duplicates_group_iff (after 16 mapsFile) (fun _ _ => 7) 48 128 144 160
    (fun _ => 176) (owned_after 16 mapsFile) (by decide +kernel) (by decide +kernel)
    (by decide +kernel)
  rw [hleader] at hiff
  exact hiff.mpr rfl

end Nyx.Process

namespace Nyx.Descriptors
open Nyx.Process

def threadedMapped : Kernel :=
  (threaded.process (.mmap 48 4096#64 3#32 ⟨0#32, 0#32, 0#32⟩ 0 true)).kernel

/-- The thread forks: the child has neither the region nor the pipe. -/
theorem thread_fork_loses_group : (threadedMapped.doFork 80 128 144 160 fun _ => 0).2 = 4#32 ∧
      ((threadedMapped.procs (threadedMapped.tgLeader 80)).mmapVmas ⟨0, by decide⟩).used = true ∧
      (∀ i, (((threadedMapped.doFork 80 128 144 160 fun _ => 0).1.procs 144).mmapVmas i).used =
        false) ∧
      ∀ m m' : Contents, ((threadedMapped.doFork 80 128 144 160 fun _ => 0).1.procs 144).shared m' ≠
          (threadedMapped.procs (threadedMapped.tgLeader 80)).shared m := by
  refine ⟨by decide +kernel, by decide +kernel, by decide +kernel, fun m m' h => ?_⟩
  have hpipe : ((⟨3, by decide⟩, 0x40000000#32) : Fin procMaxFds × BitVec 32) ∈
      ((threadedMapped.procs (threadedMapped.tgLeader 80)).shared m).pipes := by
    show _ ∧ _
    decide +kernel
  rw [← h] at hpipe
  exact absurd hpipe.1 (by decide +kernel)

end Nyx.Descriptors
