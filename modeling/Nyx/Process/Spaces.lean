import Nyx.Process.Snapshots

/-! The lifetime of address spaces.

Threads share a page directory, so a directory is freed only by the last task that points
at it. Four places free one (two ways of reaping, `execve`, failures of `fork` and of the
loader), each with its own order of the sharing check, the change of the pointer and the
removal from the table. Over every run no directory is freed while another entry points at
it, none is freed twice, and no entry points at a freed one (`address_space_lifetime`).
`Sound` is stated for a set of tasks: one being reaped is taken out of it when its directory
goes, which may be before it leaves the table. -/
namespace Nyx.Process
open Nyx.Lib Function Kernel List

/-- The part of the kernel that the lifetime of page directories depends on. -/
structure Spaces where
  table : List Nat
  dirs : Nat → Bool
  teardowns : List Teardown
  directory : Nat → Nat

def Resources.spaces (r : Resources) : Spaces := ⟨r.table, r.dirs, r.teardowns, r.directory⟩

def Kernel.spaces (k : Kernel) : Spaces :=
  ⟨k.table, k.dirs, k.teardowns, fun p => (k.procs p).pageDirectory⟩

namespace Spaces

/-- Every directory freed so far was allocated and no other task pointed at it, and the
tasks `T` point at allocated directories or at none. -/
structure Sound (s : Spaces) (T : Set Nat) : Prop where
  teardowns : ∀ t ∈ s.teardowns, t.live = true ∧ t.sharers = []
  pointers : ∀ p ∈ T, s.directory p ≠ 0 → s.dirs (s.directory p) = true

def tasks (s : Spaces) : Set Nat := {p | p ∈ s.table}

/-- A directory that is allocated and that no task of the table points at. -/
def Fresh (s : Spaces) (dir : Nat) : Prop := s.dirs dir = true ∧ ∀ p ∈ s.table, s.directory p ≠ dir

/-- The task `p` is not in the table yet and points at `dir`. -/
structure Building (s : Spaces) (p dir : Nat) : Prop where
  sound : s.Sound s.tasks
  outside : p ∉ s.table
  points : s.directory p = dir

end Spaces

/-- Between operations, every task of the table is considered. -/
def Kernel.Tidy (k : Kernel) : Prop := k.spaces.Sound k.spaces.tasks

/-! ### What leaves the address spaces alone -/

namespace Kernel
variable (k : Kernel) (p : Nat) (f : Proc → Proc)

@[simp] theorem spaces_modify (h : ∀ t, (f t).pageDirectory = t.pageDirectory) :
    (k.modify p f).spaces = k.spaces := by
  have hdir := k.modify_field p f Proc.pageDirectory h
  unfold spaces
  simp only [hdir]
  rfl

theorem spaces_eq : k.spaces = k.resources.spaces := rfl

variable {k} in
theorem spaces_quiet {k' : Kernel} (h : k'.resources = k.resources) : k'.spaces = k.spaces := by
  rw [spaces_eq, h, ← spaces_eq]

variable {k p} in
theorem spaces_diverted {k' : Kernel} (h : k.Diverted k' p) : k'.spaces = k.spaces := by
  rcases h with h | ⟨s, _, _, h⟩
  · exact spaces_quiet h
  rw [spaces_eq, h]
  rfl

variable {k} in
theorem spaces_heap {k' : Kernel} (h : k'.settings = k.settings) : k'.spaces = k.spaces :=
  congrArg (fun s : Settings => (⟨s.table, s.dirs, s.teardowns, s.directory⟩ : Spaces)) h

@[simp] theorem spaces_kmalloc (choice : Nat) : (k.kmalloc choice).1.spaces = k.spaces :=
  spaces_heap (k.settings_kmalloc choice)

@[simp] theorem spaces_kfree (block : Nat) : (k.kfree block).spaces = k.spaces :=
  spaces_heap (k.settings_kfree block)

@[simp] theorem spaces_build (rip : BitVec 64) : (k.build rip).spaces = k.spaces := rfl

@[simp] theorem spaces_increfPipes (t : Proc) : (k.increfPipes t).spaces = k.spaces := rfl

@[simp] theorem spaces_closeProcFds : (k.closeProcFds p).spaces = k.spaces :=
  spaces_quiet (k.resources_closeProcFds p)

@[simp] theorem spaces_initTaskStack (stack : Nat) (frame : Frame) :
    (k.initTaskStack p stack frame).1.spaces = k.spaces :=
  spaces_heap (k.settings_initTaskStack p stack frame)

@[simp] theorem spaces_dupBufs (bufs : Fin procMaxVmas → Nat) :
    (k.dupBufs p bufs).spaces = k.spaces := spaces_heap (k.settings_dupBufs p bufs)

@[simp] theorem spaces_mmapFreeBufs : (k.mmapFreeBufs p).spaces = k.spaces :=
  spaces_heap (k.settings_mmapFreeBufs p)

@[simp] theorem spaces_foldl_dropVma (l : List (Fin procMaxVmas)) :
    (l.foldl (dropVma p) k).spaces = k.spaces := spaces_heap (k.settings_foldl_dropVma p l)

@[simp] theorem spaces_tgReassignLeader : (k.tgReassignLeader p).spaces = k.spaces :=
  spaces_heap (k.settings_tgReassignLeader p)

@[simp] theorem spaces_wakeWaiters : (k.wakeWaiters p).spaces = k.spaces :=
  spaces_quiet (k.resources_wakeWaiters p)

theorem spaces_doSignal (sig : BitVec 32) (handler trampoline : BitVec 64) :
    (k.doSignal p sig handler trampoline).1.spaces = k.spaces := by
  rcases k.resources_doSignal p sig handler trampoline with h | ⟨s, _, _, h⟩
  · exact spaces_quiet h
  rw [spaces_eq, h]
  rfl

/-! ### Directories come and go -/

section Rules
variable {k : Kernel} {p dir owner : Nat} {T T' : Set Nat}

theorem sound_mono (h : k.spaces.Sound T) (hsub : T' ⊆ T) : k.spaces.Sound T' :=
  ⟨h.teardowns, fun p hp => h.pointers p (hsub hp)⟩

theorem sound_alloc (h : k.spaces.Sound T) (choice : Nat) :
    (k.allocPageDirectory choice).1.spaces.Sound T := by
  unfold allocPageDirectory
  split
  · exact h
  refine ⟨h.teardowns, ?_⟩
  intro p hp hne
  have hlive := h.pointers p hp hne
  show update k.dirs choice true (k.procs p).pageDirectory = true
  rw [update_apply]
  split
  · rfl
  · exact hlive

/-- An allocation changes which directories are allocated, nothing else. -/
theorem spaces_alloc (k : Kernel) (choice : Nat) : (k.allocPageDirectory choice).1.spaces =
    {k.spaces with dirs := (k.allocPageDirectory choice).1.dirs} := by
  unfold allocPageDirectory
  split <;> rfl

/-- A new directory is allocated and nobody points at it. -/
theorem alloc_fresh (h : k.spaces.Sound T) {choice : Nat}
    (hdir : (k.allocPageDirectory choice).2 ≠ 0) :
    (k.allocPageDirectory choice).1.dirs (k.allocPageDirectory choice).2 = true ∧
      ∀ p ∈ T, k.spaces.directory p ≠ (k.allocPageDirectory choice).2 := by
  unfold allocPageDirectory at hdir ⊢
  split at hdir
  · exact absurd rfl hdir
  case isFalse hc =>
    rw [if_neg hc]
    refine ⟨update_self .., ?_⟩
    intro p hp he
    have hlive := h.pointers p hp (he ▸ hdir)
    rw [he] at hlive
    exact hc (.inr hlive)

/-- A directory is freed for its last user, `owner`. -/
theorem sound_free (h : k.spaces.Sound T) (hlive : dir ≠ 0 → k.dirs dir = true)
    (hshare : ∀ p ∈ k.table, p ≠ owner → (k.procs p).pageDirectory ≠ dir)
    (hT : ∀ p ∈ T', p ∈ T ∧ (k.procs p).pageDirectory ≠ dir) :
    (k.freePageDirectory dir owner).spaces.Sound T' := by
  unfold freePageDirectory
  split
  · exact sound_mono h fun p hp => (hT p hp).1
  case isFalse hne =>
    refine ⟨?_, ?_⟩
    · intro t ht
      rcases mem_append.mp ht with ht | ht
      · exact h.teardowns t ht
      rw [mem_singleton.mp ht]
      refine ⟨hlive hne, filter_eq_nil_iff.mpr fun p hp => ?_⟩
      simp only [Bool.and_eq_true, bne_iff_ne, beq_iff_eq, not_and]
      exact hshare p hp
    · intro p hp hdir
      show update k.dirs dir false (k.procs p).pageDirectory = true
      rw [update_of_ne (hT p hp).2]
      exact h.pointers p (hT p hp).1 hdir

theorem not_shared (h0 : 0 ∉ k.table) (h : k.addrSpaceShared dir owner = false)
    (hdir : dir ≠ 0) : ∀ p ∈ k.table, p ≠ owner → (k.procs p).pageDirectory ≠ dir := by
  intro p hp hne he
  unfold addrSpaceShared at h
  rw [Bool.and_eq_false_iff] at h
  rcases h with h | h
  · exact absurd h (by simp [hdir])
  have hnone := any_eq_false.mp h p hp
  have hp0 : p ≠ 0 := fun h => h0 (h ▸ hp)
  simp [hp0, hne, he] at hnone

/-- The dying task `p` is in `T` and no longer after its directory is released. -/
theorem sound_releaseSpace (h : k.spaces.Sound T) (h0 : 0 ∉ k.table) (hp : p ∈ T)
    (hT : ∀ q ∈ T', q ∈ T ∧ q ∈ k.table ∧ q ≠ p) : (k.releaseSpace p).spaces.Sound T' := by
  unfold releaseSpace
  rw [spaces_kfree]
  split
  case isTrue hc =>
    have hshare := not_shared h0 hc.2 hc.1
    refine sound_free h (fun hne => h.pointers p hp hne) hshare ?_
    exact fun q hq => ⟨(hT q hq).1, hshare q (hT q hq).2.1 (hT q hq).2.2⟩
  case isFalse => exact sound_mono h fun q hq => (hT q hq).1

theorem sound_tearDown (h : k.spaces.Sound T) (h0 : 0 ∉ k.table) (hp : p ∈ T)
    (hT : ∀ q ∈ T', q ∈ T ∧ q ∈ k.table ∧ q ≠ p) : (k.tearDown p).spaces.Sound T' := by
  unfold tearDown
  refine sound_releaseSpace (T := T) ?_ ?_ hp ?_
  · rwa [spaces_mmapFreeBufs, spaces_tgReassignLeader]
  · rwa [mmapFreeBufs_table, tgReassignLeader_table]
  · rwa [mmapFreeBufs_table, tgReassignLeader_table]

theorem sound_removeEntry {i : Nat} (h : k.spaces.Sound T) : (k.removeEntry i).spaces.Sound T :=
  ⟨h.teardowns, h.pointers⟩

theorem spaces_patchIndex (k : Kernel) (i : Nat) : (k.patchIndex i).spaces = k.spaces := rfl

theorem tasks_eq {l : List Nat} (h : k.table = l) : k.spaces.tasks = {q | q ∈ l} := by
  rw [← h]
  rfl

theorem tidy_reapEntry (h : k.Tidy) (hk : k.blocks.Owned) {i : Nat} (hi : k.table[i]? = some p) :
    (k.reapEntry p i).Tidy := by
  have hclosed : (k.closeProcFds p).spaces.Sound k.spaces.tasks := by
    rwa [spaces_closeProcFds]
  have htorn : ((k.closeProcFds p).tearDown p).spaces.Sound {q | q ∈ swapRemove k.table i} := by
    refine sound_tearDown hclosed hk.nonnull (mem_of_getElem? hi) fun q hq => ?_
    have hmem := (mem_swapRemove hk.nodup hi).mp hq
    exact ⟨hmem.1, hmem.1, hmem.2⟩
  unfold Tidy
  rw [tasks_eq (reapEntry_table k p i)]
  unfold reapEntry
  rw [spaces_kfree]
  refine sound_removeEntry ?_
  rwa [spaces_patchIndex]

theorem tidy_reapUserProcess (h : k.Tidy) (hk : k.blocks.Owned) (hp : p ∈ k.table) :
    (k.reapUserProcess p).Tidy := by
  have hi : k.table[k.table.idxOf p]? = some p := getElem?_idxOf hp
  have hmem {q : Nat} := mem_swapRemove (y := q) hk.nodup hi
  have htable : (k.reapUserProcess p).table = swapRemove k.table (k.table.idxOf p) := by
    rw [reapUserProcess_eq hp, kfree_table, tearDown_table, removeEntry_table, closeProcFds_table]
  have hclosed : (k.closeProcFds p).spaces.Sound k.spaces.tasks := by
    rwa [spaces_closeProcFds]
  unfold Tidy
  rw [tasks_eq htable, reapUserProcess_eq hp, spaces_kfree]
  refine sound_tearDown (sound_removeEntry hclosed) ?_ hp ?_
  · exact fun h0 => hk.nonnull (hmem.mp h0).1
  · exact fun q hq => ⟨(hmem.mp hq).1, hq, (hmem.mp hq).2⟩

/-! ### New tasks -/

variable {block : Nat} {fill : BitVec 32 → Proc}

theorem spaces_newTask_null (hp : (k.newTask block fill).2 = 0) :
    (k.newTask block fill).1.spaces = k.spaces := by
  unfold newTask at hp ⊢
  dsimp only at hp ⊢
  split at hp
  case isTrue hnull => rw [if_pos hnull, spaces_kmalloc]
  case isFalse hnull => exact absurd hp hnull

theorem spaces_newTask (hp : (k.newTask block fill).2 ≠ 0) :
    ∃ pid, (k.newTask block fill).1.spaces = {k.spaces with
      directory := update k.spaces.directory (k.newTask block fill).2
        (fill pid).pageDirectory} := by
  unfold newTask at hp ⊢
  dsimp only at hp ⊢
  split at hp
  · exact absurd rfl hp
  case isFalse hnull =>
    rw [if_neg hnull]
    refine ⟨(k.kmalloc block).1.nextPid.setWidth 32, ?_⟩
    have hsame := k.spaces_kmalloc block
    rw [← hsame]
    unfold spaces modify
    congr 1
    funext q
    dsimp only
    rw [update_apply, update_apply]
    split <;> rfl

theorem building_newTask {d : Nat} (h : k.Tidy) (hk : k.blocks.Owned)
    (hp : (k.newTask block fill).2 ≠ 0) (hstack : ∀ pid, (fill pid).kernelStack = 0)
    (hdir : ∀ pid, (fill pid).pageDirectory = d) :
    (k.newTask block fill).1.spaces.Building (k.newTask block fill).2 d := by
  obtain ⟨pid, he⟩ := spaces_newTask hp
  have hout := newTask_outside hk hp hstack
  rw [he]
  refine ⟨⟨h.teardowns, ?_⟩, hout, ?_⟩
  · intro q hq
    have hne : q ≠ (k.newTask block fill).2 := fun hqp => hout (hqp ▸ hq)
    dsimp only
    rw [update_of_ne hne]
    exact h.pointers q hq
  · rw [← hdir pid]
    exact update_self ..

theorem fresh_newTask (hk : k.blocks.Owned) (hp : (k.newTask block fill).2 ≠ 0)
    (hstack : ∀ pid, (fill pid).kernelStack = 0) (hfresh : k.spaces.Fresh dir) :
    (k.newTask block fill).1.spaces.Fresh dir := by
  obtain ⟨pid, he⟩ := spaces_newTask hp
  have hout := newTask_outside hk hp hstack
  rw [he]
  refine ⟨hfresh.1, ?_⟩
  intro q hq
  have hne : q ≠ (k.newTask block fill).2 := fun hqp => hout (hqp ▸ hq)
  dsimp only
  rw [update_of_ne hne]
  exact hfresh.2 q hq

theorem tidy_append {d : Nat} (h : k.spaces.Building p d) (hlive : d ≠ 0 → k.spaces.dirs d = true) :
    (k.append p).Tidy := by
  refine ⟨h.sound.teardowns, ?_⟩
  intro q hq hne
  rcases mem_append.mp hq with hq | hq
  · exact h.sound.pointers q hq hne
  have hdir : k.spaces.directory q = d := (mem_singleton.mp hq) ▸ h.points
  show k.spaces.dirs (k.spaces.directory q) = true
  rw [hdir]
  exact hlive fun h0 => hne (hdir.trans h0)

/-- A directory nobody points at is given back. -/
theorem tidy_free_fresh (h : k.Tidy) (hfresh : k.spaces.Fresh dir) (owner : Nat) :
    (k.freePageDirectory dir owner).Tidy := by
  unfold Tidy
  rw [tasks_eq (freePageDirectory_table k dir owner)]
  exact sound_free h (fun _ => hfresh.1) (fun p hp _ => hfresh.2 p hp)
    fun p hp => ⟨hp, hfresh.2 p hp⟩

theorem tidy_congr {k' : Kernel} (he : k'.spaces = k.spaces) (h : k.Tidy) : k'.Tidy := by
  unfold Tidy
  rwa [he]

theorem tidy_alloc (h : k.Tidy) (choice : Nat) : (k.allocPageDirectory choice).1.Tidy := by
  have hsound := sound_alloc h choice
  unfold Tidy
  rw [spaces_alloc] at hsound ⊢
  exact hsound

theorem fresh_alloc (h : k.Tidy) {choice : Nat} (hdir : (k.allocPageDirectory choice).2 ≠ 0) :
    (k.allocPageDirectory choice).1.spaces.Fresh (k.allocPageDirectory choice).2 := by
  have hfresh := alloc_fresh h hdir
  refine ⟨hfresh.1, ?_⟩
  rw [spaces_alloc]
  exact hfresh.2

/-! ### The operations -/

section
variable (h : k.Tidy)
include h

theorem tidy_createProcess (hk : k.blocks.Owned) (entry : Bool) (block stack : Nat) :
    (k.createProcess entry block stack).1.Tidy := by
  unfold createProcess
  dsimp only
  split
  · exact h
  split
  case isTrue hp => exact tidy_congr (spaces_newTask_null hp) h
  case isFalse hp =>
    have hbuilt := building_newTask (d := 0) h hk hp (fun _ => rfl) fun _ => rfl
    split
    · split
      · refine tidy_append (d := 0) ?_ fun h0 => absurd rfl h0
        rwa [spaces_initTaskStack]
      · refine tidy_congr ?_ hbuilt.sound
        simp
    · exact tidy_append hbuilt fun h0 => absurd rfl h0

/-- Either the new task owns the directory, or nothing happened to the address spaces. -/
theorem tidy_createUserProcess (hk : k.blocks.Owned) (hfresh : k.spaces.Fresh dir)
    (entry rsp : BitVec 64) (block stack : Nat) :
    (k.createUserProcess entry rsp dir block stack).1.Tidy ∧
      ((k.createUserProcess entry rsp dir block stack).2 = 0 →
        (k.createUserProcess entry rsp dir block stack).1.spaces.Fresh dir) := by
  unfold createUserProcess
  dsimp only
  split
  · exact ⟨h, fun _ => hfresh⟩
  split
  case isTrue hp =>
    have hsame := spaces_newTask_null hp
    exact ⟨tidy_congr hsame h, fun _ => hsame ▸ hfresh⟩
  case isFalse hp =>
    have hbuilt := building_newTask (d := dir) h hk hp (fun _ => rfl) fun _ => rfl
    have hkept := fresh_newTask hk hp (fun _ => rfl) hfresh
    split
    · refine ⟨tidy_append (d := dir) ?_ fun _ => ?_, fun h0 => absurd h0 hp⟩
      · rwa [spaces_build, spaces_initTaskStack]
      · rw [spaces_build, spaces_initTaskStack]
        exact hkept.1
    · refine ⟨tidy_congr ?_ hbuilt.sound, fun _ => ?_⟩
      · simp
      · rwa [spaces_kfree, spaces_initTaskStack]

theorem tidy_free_alloc (choice : Nat) :
    ((k.allocPageDirectory choice).1.freePageDirectory (k.allocPageDirectory choice).2 0).Tidy := by
  have halloc := tidy_alloc h choice
  rcases eq_or_ne (k.allocPageDirectory choice).2 0 with hdir | hdir
  · rw [hdir]
    exact halloc
  · exact tidy_free_fresh halloc (fresh_alloc h hdir) 0

theorem tidy_elfLoadImage (load : Load) : (k.elfLoadImage load).1.Tidy ∧
      ∀ dir entry brk, (k.elfLoadImage load).2 = some (dir, entry, brk) →
        dir ≠ 0 ∧ (k.elfLoadImage load).1.spaces.Fresh dir := by
  cases load with
  | refused => exact ⟨h, fun _ _ _ he => nomatch he⟩
  | abandoned choice => exact ⟨tidy_free_alloc h choice, fun _ _ _ he => nomatch he⟩
  | loaded choice entry brk =>
    unfold elfLoadImage
    dsimp only
    split
    · exact ⟨tidy_alloc h choice, fun _ _ _ he => nomatch he⟩
    case isFalse hdir =>
      split
      · exact ⟨tidy_free_alloc h choice, fun _ _ _ he => nomatch he⟩
      refine ⟨tidy_alloc h choice, ?_⟩
      intro dir entry brk he
      injection he with he
      injection he with he _
      rw [← he]
      exact ⟨hdir, fresh_alloc h hdir⟩

theorem tidy_elfLoadArgs (hk : k.blocks.Owned) (load : Load) (rsp : BitVec 64) (block stack : Nat) :
    (k.elfLoadArgs load rsp block stack).1.Tidy := by
  obtain ⟨himage, hdir⟩ := tidy_elfLoadImage h load
  have hblocks := blocks_elfLoadImage k load
  unfold elfLoadArgs
  split
  case h_1 k' hload =>
    rw [hload] at himage
    exact himage
  case h_2 k' dir entry brk hload =>
    rw [hload] at himage hdir hblocks
    obtain ⟨_, hfresh⟩ := hdir dir entry brk rfl
    rw [← hblocks] at hk
    obtain ⟨hmade, hkept⟩ := tidy_createUserProcess himage hk hfresh entry rsp block stack
    split
    case h_1 k'' hcreate =>
      rw [hcreate] at hmade hkept
      exact tidy_free_fresh hmade (hkept rfl) 0
    case h_2 k'' p hcreate =>
      rw [hcreate] at hmade
      exact tidy_congr (by simp) hmade

theorem tidy_spawnUserPathArgs (hk : k.blocks.Owned) (parent : Option Nat) (load : Load)
    (rsp : BitVec 64) (block stack : Nat) :
    (k.spawnUserPathArgs parent load rsp block stack).1.Tidy := by
  have hloaded := tidy_elfLoadArgs h hk load rsp block stack
  unfold spawnUserPathArgs
  dsimp only
  split
  · exact hloaded
  · exact tidy_congr (by simp) hloaded

theorem tidy_doFork (hk : k.blocks.Owned) (self dirChoice block stack : Nat)
    (bufs : Fin procMaxVmas → Nat) : (k.doFork self dirChoice block stack bufs).1.Tidy := by
  unfold doFork
  dsimp only
  split
  · exact h
  have halloc := tidy_alloc h dirChoice
  have hk : (k.allocPageDirectory dirChoice).1.blocks.Owned := by
    rwa [blocks_allocPageDirectory]
  split
  · exact halloc
  case isFalse hdir =>
    have hfresh := fresh_alloc h hdir
    split
    case isTrue hp =>
      have hsame := spaces_newTask_null hp
      exact tidy_free_fresh (tidy_congr hsame halloc) (hsame ▸ hfresh) 0
    case isFalse hp =>
      have hbuilt := building_newTask halloc hk hp (fun _ => rfl)
        (d := (k.allocPageDirectory dirChoice).2) fun _ => rfl
      have hkept := fresh_newTask hk hp (fun _ => rfl) hfresh
      split
      · refine tidy_append (d := (k.allocPageDirectory dirChoice).2) ?_ fun _ => ?_
        · simpa using hbuilt
        · simpa using hkept.1
      · refine tidy_congr (spaces_kfree _ _) (tidy_free_fresh ?_ ?_ 0)
        · exact tidy_congr (by simp) hbuilt.sound
        · simpa using hkept

theorem tidy_doClone (hk : k.blocks.Owned) {self : Nat} (hself : self ∈ k.table)
    (fn stack arg flags : BitVec 64) (block kstack : Nat) :
    (k.doClone self fn stack arg flags block kstack).1.Tidy := by
  unfold doClone
  dsimp only
  split
  · exact h
  split
  case isTrue hp => exact tidy_congr (spaces_newTask_null hp) h
  case isFalse hp =>
    have hbuilt := building_newTask h hk hp (fun _ => rfl)
      (d := (k.procs self).pageDirectory) fun _ => rfl
    obtain ⟨pid, hsame⟩ := spaces_newTask hp
    split
    · refine tidy_append (d := (k.procs self).pageDirectory) ?_ fun hne => ?_
      · simpa using hbuilt
      · have hlive := h.pointers self hself hne
        simp only [spaces_modify, implies_true, spaces_build, spaces_initTaskStack, hsame]
        exact hlive
    · exact tidy_congr (by simp) hbuilt.sound

/-- A task of the table gets a directory of its own. -/
theorem tidy_reimage (hfresh : k.spaces.Fresh dir) {f : Proc → Proc}
    (hf : ∀ t, (f t).pageDirectory = dir) : (k.modify p f).Tidy := by
  refine ⟨h.teardowns, ?_⟩
  intro q hq hne
  show k.dirs ((k.modify p f).procs q).pageDirectory = true
  rcases eq_or_ne q p with rfl | hqp
  · rw [modify_procs_self, hf]
    exact hfresh.1
  have hsame := k.modify_procs_ne p f hqp
  have hdir : ((k.modify p f).procs q).pageDirectory ≠ 0 := hne
  rw [hsame] at hdir ⊢
  exact h.pointers q hq hdir

/-- The directory `p` pointed at before is freed unless another entry still uses it. -/
theorem tidy_releaseOld (h0 : 0 ∉ k.table) (hdir : dir ≠ 0) (hlive : k.dirs dir = true)
    (hp : (k.procs p).pageDirectory ≠ dir) :
    (if k.addrSpaceShared dir p then k else k.freePageDirectory dir p).Tidy := by
  split
  · exact h
  case isFalse hshared =>
    have hshare := not_shared h0 (Bool.eq_false_iff.mpr hshared) hdir
    unfold Tidy
    rw [tasks_eq (freePageDirectory_table k dir p)]
    refine sound_free h (fun _ => hlive) hshare fun q hq => ⟨hq, ?_⟩
    rcases eq_or_ne q p with rfl | hqp
    · exact hp
    · exact hshare q hq hqp

theorem tidy_doExecve (hk : k.blocks.Owned) {self : Nat} (hself : self ∈ k.table) (load : Load)
    (argc sp : BitVec 64) : (k.doExecve self load argc sp).1.Tidy := by
  obtain ⟨himage, hnew⟩ := tidy_elfLoadImage h load
  obtain ⟨htable, hprocs⟩ := elfLoadImage_same k load
  unfold doExecve
  dsimp only
  split
  · exact h
  case isFalse hold =>
    split
    case h_1 k' hload =>
      rw [hload] at himage
      exact himage
    case h_2 k' dir entry brk hload =>
      rw [hload] at himage hnew htable hprocs
      obtain ⟨_, hfresh⟩ := hnew dir entry brk rfl
      have hself' : self ∈ k'.table := htable ▸ hself
      have hself0 : (k'.procs self).pageDirectory = (k.procs self).pageDirectory := by rw [hprocs]
      have hlive := himage.pointers self hself' fun he => hold (hself0.symm.trans he)
      -- What the loop and the assignments after it leave as they found it.
      generalize hK : Kernel.modify (foldl _ _ _) self _ = K
      have hsame : K.spaces = (k'.modify self (reimagedProc · dir brk)).spaces := by
        rw [← hK]
        simp
      have hdirs : K.dirs = k'.dirs := congrArg Spaces.dirs hsame
      have hKtable : K.table = k'.table := congrArg Spaces.table hsame
      have hKself : (K.procs self).pageDirectory = dir := by
        have he := congrFun (congrArg Spaces.directory hsame) self
        exact he.trans (congrArg Proc.pageDirectory (k'.modify_procs_self self _))
      refine tidy_congr (k := ite _ _ _) ((spaces_build _ entry).trans (spaces_modify _ _ _
        fun _ => rfl)) (tidy_releaseOld ?_ ?_ hold ?_ ?_)
      · exact tidy_congr hsame (tidy_reimage himage hfresh fun _ => rfl)
      · rw [hKtable, htable]
        exact hk.nonnull
      · rw [hdirs, ← hself0]
        exact hlive
      · rw [hKself, ← hself0]
        exact (hfresh.2 self hself').symm

theorem tidy_destroyProcess (hk : k.blocks.Owned) (pid : BitVec 64) :
    (k.destroyProcess pid).Tidy := by
  unfold destroyProcess
  split
  · exact h
  case h_2 p hfind =>
    split
    · exact tidy_congr (by simp) h
    · exact tidy_reapUserProcess h hk (mem_of_find?_eq_some hfind)

end

theorem tidy_reapFrom (turns : Nat) :
    ∀ (k : Kernel) (i : Nat), k.Tidy → k.blocks.Owned → (k.reapFrom turns i).Tidy := by
  induction turns with
  | zero => exact fun _ _ h _ => h
  | succ turns ih =>
    intro k i h hk
    unfold reapFrom
    split
    · exact h
    case h_2 p hp =>
      split
      · exact ih _ i (tidy_reapEntry h hk hp) (owned_reapEntry hk hp)
      · exact ih k (i + 1) h hk

theorem tidy_doWaitpid (h : k.Tidy) (hk : k.blocks.Owned) (self : Nat)
    (wpid options : BitVec 32) : (k.doWaitpid self wpid options).1.Tidy := by
  unfold doWaitpid
  split
  · exact h
  split
  case h_1 zi hfind =>
    have hzi := findIdx?_eq_some_iff_findIdx_eq.mp hfind
    refine tidy_reapEntry h hk ?_
    rw [getD_eq_getElem?_getD, getElem?_eq_getElem hzi.1]
    rfl
  · split
    · exact tidy_congr (by simp) h
    · split
      · exact h
      · exact tidy_congr (by simp) h

end Rules
end Kernel

/-! ### Runs -/

theorem tidy_empty : empty.Tidy :=
  ⟨fun _ ht => absurd ht not_mem_nil, fun _ hp => absurd hp not_mem_nil⟩

theorem tidy_boot (init : Nat) : (boot init).Tidy := by
  unfold boot initProcess
  dsimp only
  split
  case isTrue hp => exact tidy_congr (spaces_newTask_null hp) tidy_empty
  case isFalse hp =>
    have hbuilt := building_newTask (d := 0) tidy_empty owned_empty hp (fun _ => rfl) fun _ => rfl
    exact tidy_append hbuilt fun h0 => absurd rfl h0

theorem tidy_quiet {k k' : Kernel} (he : k'.resources = k.resources) (h : k.Tidy) : k'.Tidy :=
  tidy_congr (Kernel.spaces_quiet he) h

theorem tidy_heap {k k' : Kernel} (he : k'.settings = k.settings) (h : k.Tidy) : k'.Tidy :=
  tidy_congr (Kernel.spaces_heap he) h

theorem tidy_diverted {k k' : Kernel} {p : Nat} (hd : k.Diverted k' p) (h : k.Tidy) : k'.Tidy :=
  tidy_congr (spaces_diverted hd) h

theorem tidy_step (k : Kernel) (op : Op) (hk : k.blocks.Owned) (h : k.Tidy) : (step k op).Tidy := by
  unfold step
  split
  case isFalse => exact h
  case isTrue hcaller =>
    cases op with
    | createProcess => exact tidy_createProcess h hk ..
    | load => exact tidy_elfLoadArgs h hk ..
    | spawn => exact tidy_spawnUserPathArgs h hk ..
    | fork => exact tidy_doFork h hk ..
    | clone self => exact tidy_doClone h hk (hcaller self rfl) ..
    | execve self => exact tidy_doExecve h hk (hcaller self rfl) ..
    | exit self code => exact tidy_quiet (k.resources_exit self code true) h
    | waitpid => exact tidy_doWaitpid h hk ..
    | kwait => exact tidy_quiet (k.resources_kwait ..) h
    | reapZombies => exact tidy_reapFrom _ k 0 h hk
    | destroyProcess pid => exact tidy_destroyProcess h hk pid
    | mmap => exact tidy_heap (blind_settings.doMmap ..) h
    | mprotect => exact tidy_heap (blind_settings.doMprotect ..) h
    | munmap => exact tidy_heap (blind_settings.doMunmap ..) h
    | signal => exact tidy_congr (k.spaces_doSignal ..) h
    | kill => exact tidy_quiet (k.resources_doKill ..) h
    | dispatch => exact tidy_diverted (k.diverted_signalDispatch ..) h
    | resumed self => exact tidy_quiet (k.resources_clearPending self sigcont) h
    | userFault => exact tidy_diverted (k.diverted_userFault ..) h
    | sigreturn self => exact tidy_quiet (k.resources_doSigreturn self) h
    | sigprocmask => exact tidy_quiet (k.resources_doSigprocmask ..) h
    | trap => exact tidy_quiet (by simp [perform]) h

theorem tidy_after (init : Nat) (ops : List Op) : (after init ops).Tidy := by
  have hboth := run_keeps (P := fun k : Kernel => k.blocks.Owned ∧ k.Tidy)
    (fun k op h => ⟨owned_step k op h.1, tidy_step k op h.1 h.2⟩) (boot init) ops
    ⟨owned_boot init, tidy_boot init⟩
  exact hboth.2

/-- What is asked of page directories: each was allocated when it was freed and no other
entry of the table pointed at it, and no entry points at a freed one. -/
structure SpacesAlive (k : Kernel) : Prop where
  once : ∀ t ∈ k.teardowns, t.live = true
  last : ∀ t ∈ k.teardowns, t.sharers = []
  alive : ∀ p ∈ k.table, (k.procs p).pageDirectory ≠ 0 → k.dirs (k.procs p).pageDirectory = true

/-- Over every run, `free_page_directory` is called at most once for each page directory
handed out, for the last entry that points at it, and no entry points at a freed one. -/
theorem address_space_lifetime (init : Nat) (ops : List Op) : SpacesAlive (after init ops) := by
  have h := tidy_after init ops
  exact ⟨fun t ht => (h.teardowns t ht).1, fun t ht => (h.teardowns t ht).2, h.pointers⟩

end Nyx.Process
