import Nyx.Lib.Ownership
import Nyx.Process.Resources

/-! Who owns which heap block.

A task owns its own record, its kernel stack and the snapshot buffers of its region table.
Over every run each block is owned at one place and allocated, and every `kfree` finds its
block allocated (`Owned`). In the states inside an operation a child's regions still alias its
parent's buffers and a task that is out of the table still holds its own: `Owns` is stated for
a set of places, which those of a task join when they are filled and leave before they are
freed. -/
namespace Nyx.Process
open Nyx.Lib

/-- Where a block's address is stored. -/
inductive Place where
  | task (p : Nat)
  | stack (p : Nat)
  | buf (p : Nat) (i : Fin procMaxVmas)
deriving DecidableEq, Repr

def Place.owner : Place → Nat
  | .task p | .stack p | .buf p _ => p

/-- The part of the kernel that block ownership depends on. -/
structure Blocks where
  table : List Nat
  heap : Nat → Bool
  kfrees : List Kfree
  kernelStacks : Nat → Nat
  regions : Nat → Fin procMaxVmas → Vma

def Resources.blocks (r : Resources) : Blocks :=
  ⟨r.table, r.heap, r.kfrees, r.kernelStacks, r.regions⟩

def Kernel.blocks (k : Kernel) : Blocks :=
  ⟨k.table, k.heap, k.kfrees, fun p => (k.procs p).kernelStack, fun p => (k.procs p).mmapVmas⟩

namespace Blocks

def held (b : Blocks) : Place → Nat
  | .task p => p
  | .stack p => b.kernelStacks p
  | .buf p i => (b.regions p i).fileBuf

def places (b : Blocks) : Set Place := {x | x.owner ∈ b.table}

/-- Ownership over a set of places: exclusive, an unused region owns nothing, and what was
freed so far was allocated when it was freed. -/
structure Owns (b : Blocks) (S : Set Place) : Prop where
  exclusive : Exclusive b.held b.heap S
  idle : ∀ p i, .buf p i ∈ S → (b.regions p i).used = false → (b.regions p i).fileBuf = 0
  frees : ∀ f ∈ b.kfrees, f.live = true

structure Owned (b : Blocks) : Prop where
  nodup : b.table.Nodup
  nonnull : 0 ∉ b.table
  owns : b.Owns b.places

end Blocks

theorem heap_of_mem {k : Kernel} (hk : k.blocks.Owned) {p : Nat} (hp : p ∈ k.table) :
    k.heap p = true := hk.owns.exclusive.live (.task p) hp fun h0 => hk.nonnull (h0 ▸ hp)

/-! ### What leaves the blocks alone -/

namespace Kernel
variable (k : Kernel) (p : Nat) (f : Proc → Proc)

@[simp] theorem blocks_modify (hs : ∀ t, (f t).kernelStack = t.kernelStack)
    (hv : ∀ t, (f t).mmapVmas = t.mmapVmas) : (k.modify p f).blocks = k.blocks := by
  have hstack := k.modify_field p f Proc.kernelStack hs
  have hregion := k.modify_field p f Proc.mmapVmas hv
  unfold blocks
  simp only [hstack, hregion]
  rfl

theorem blocks_eq : k.blocks = k.resources.blocks := rfl

variable {k} in
theorem blocks_quiet {k' : Kernel} (h : k'.resources = k.resources) : k'.blocks = k.blocks := by
  rw [blocks_eq, h, ← blocks_eq]

variable {k p} in
theorem blocks_diverted {k' : Kernel} (h : k.Diverted k' p) : k'.blocks = k.blocks := by
  rcases h with h | ⟨s, _, _, h⟩
  · exact blocks_quiet h
  rw [blocks_eq, h]
  rfl

@[simp] theorem blocks_build (rip : BitVec 64) : (k.build rip).blocks = k.blocks := rfl

@[simp] theorem blocks_increfPipes (t : Proc) : (k.increfPipes t).blocks = k.blocks := rfl

@[simp] theorem blocks_patchIndex (i : Nat) : (k.patchIndex i).blocks = k.blocks := rfl

@[simp] theorem blocks_allocPageDirectory (choice : Nat) :
    (k.allocPageDirectory choice).1.blocks = k.blocks := by
  unfold allocPageDirectory
  split <;> rfl

@[simp] theorem blocks_freePageDirectory (dir owner : Nat) :
    (k.freePageDirectory dir owner).blocks = k.blocks := by
  unfold freePageDirectory
  split <;> rfl

@[simp] theorem blocks_closeProcFds : (k.closeProcFds p).blocks = k.blocks :=
  blocks_quiet (k.resources_closeProcFds p)

@[simp] theorem blocks_wakeWaiters : (k.wakeWaiters p).blocks = k.blocks :=
  blocks_quiet (k.resources_wakeWaiters p)

theorem blocks_doSignal (sig : BitVec 32) (handler trampoline : BitVec 64) :
    (k.doSignal p sig handler trampoline).1.blocks = k.blocks := by
  rcases k.resources_doSignal p sig handler trampoline with h | ⟨s, _, _, h⟩
  · exact blocks_quiet h
  rw [blocks_eq, h]
  rfl

/-! ### How ownership changes -/

section Rules
variable {k : Kernel} {S S' : Set Place} {p b : Nat} {i : Fin procMaxVmas} {v : Vma}

/-- Places that hold nothing may join, and places may be forgotten. -/
theorem owns_adjust (h : k.blocks.Owns S) (hsub : ∀ x ∈ S', k.blocks.held x ≠ 0 → x ∈ S) :
    k.blocks.Owns S' := by
  refine ⟨h.exclusive.shrink fun x hx hne => ⟨hsub x hx hne, rfl⟩, ?_, h.frees⟩
  intro p i hp hused
  by_contra hne
  exact hne (h.idle p i (hsub _ hp hne) hused)

theorem owns_mono (h : k.blocks.Owns S) (hsub : S' ⊆ S) : k.blocks.Owns S' :=
  owns_adjust h fun _ hx _ => hsub hx

/-- One place `x` gets a new content: nothing, or a block nobody else owns. -/
theorem owns_replace {k' : Kernel} {x : Place} (h : k.blocks.Owns (S \ {x}))
    (hrest : ∀ y, y ≠ x → k'.blocks.held y = k.blocks.held y) (hheap : k'.heap = k.heap)
    (hfrees : k'.kfrees = k.kfrees)
    (hnew : k'.blocks.held x ≠ 0 → k.heap (k'.blocks.held x) = true ∧
      Unheld k.blocks.held (S \ {x}) (k'.blocks.held x))
    (hidle : ∀ p i, .buf p i ∈ S → (k'.blocks.regions p i).used = false →
      (k'.blocks.regions p i).fileBuf = 0) : k'.blocks.Owns S := by
  have hkept : Exclusive k'.blocks.held k.heap (S \ {x}) :=
    h.exclusive.shrink fun y hy _ => ⟨hy, hrest y hy.2⟩
  have hall : Exclusive k'.blocks.held k.heap (insert x (S \ {x})) := by
    refine hkept.insert fun hne => ⟨(hnew hne).1, ?_⟩
    intro y hy
    rw [hrest y hy.2]
    exact (hnew hne).2 y hy
  refine ⟨?_, hidle, ?_⟩
  · show Exclusive k'.blocks.held k'.heap S
    rw [hheap]
    refine hall.mono fun y hy => ?_
    rcases eq_or_ne y x with he | he
    · exact .inl he
    · exact .inr ⟨hy, he⟩
  · show ∀ f ∈ k'.kfrees, f.live = true
    rw [hfrees]
    exact h.frees

theorem owns_kmalloc (h : k.blocks.Owns S) (choice : Nat) : (k.kmalloc choice).1.blocks.Owns S := by
  unfold kmalloc
  split
  · exact h
  · exact ⟨h.exclusive.alloc, h.idle, h.frees⟩

/-- The block `kmalloc` returns is allocated and owned by nobody. -/
theorem kmalloc_fresh (h : k.blocks.Owns S) {choice : Nat} (hb : (k.kmalloc choice).2 ≠ 0) :
    (k.kmalloc choice).1.heap (k.kmalloc choice).2 = true ∧
      Unheld (k.kmalloc choice).1.blocks.held S (k.kmalloc choice).2 := by
  unfold kmalloc at hb ⊢
  split at hb
  case isTrue => exact absurd rfl hb
  case isFalse hc =>
    rw [if_neg hc]
    refine ⟨Function.update_self .., ?_⟩
    have hdead : k.heap choice = false := by
      cases hh : k.heap choice
      · rfl
      · exact absurd (.inr hh) hc
    exact h.exclusive.unheld hb hdead

theorem owns_kfree (h : k.blocks.Owns S)
    (hb : b ≠ 0 → k.heap b = true ∧ Unheld k.blocks.held S b) : (k.kfree b).blocks.Owns S := by
  unfold kfree
  split
  · exact h
  case isFalse hne =>
    refine ⟨h.exclusive.free (hb hne).2, h.idle, ?_⟩
    intro f hf
    rcases List.mem_append.mp hf with hf | hf
    · exact h.frees f hf
    rw [List.mem_singleton.mp hf]
    exact (hb hne).1

variable {x : Place}

/-- Freeing what a place holds, once that place is out of consideration. -/
theorem owns_kfree_held (h : k.blocks.Owns S) (hx : x ∈ S) (hsub : S' ⊆ S \ {x}) :
    (k.kfree (k.blocks.held x)).blocks.Owns S' := by
  refine owns_kfree (owns_mono h fun y hy => (hsub hy).1) fun hne => ⟨?_, ?_⟩
  · exact h.exclusive.live x hx hne
  · exact fun y hy => h.exclusive.unheld_of_mem hx hne y (hsub hy)

theorem held_modify_ne (hx : x.owner ≠ p) (f : Proc → Proc) :
    (k.modify p f).blocks.held x = k.blocks.held x := by
  have howner := k.modify_procs_ne p f hx
  cases x with
  | task q => rfl
  | stack q => exact congrArg Proc.kernelStack howner
  | buf q j => exact congrArg (fun t : Proc => (t.mmapVmas j).fileBuf) howner

/-- Assignments to a task none of whose places is considered. -/
theorem owns_modify_other (h : k.blocks.Owns S) (hp : ∀ x ∈ S, x.owner ≠ p)
    (f : Proc → Proc) : (k.modify p f).blocks.Owns S := by
  refine ⟨h.exclusive.shrink fun x hx _ => ⟨hx, held_modify_ne (hp x hx) f⟩, ?_, h.frees⟩
  intro q j hq hused
  have hprocs : (k.modify p f).procs q = k.procs q := k.modify_procs_ne p f (hp _ hq)
  simp only [blocks, hprocs] at hused ⊢
  exact h.idle q j hq hused

theorem regions_setVma (q : Nat) (j : Fin procMaxVmas) :
    (k.modify p (setVma · i v)).blocks.regions q j =
      if q = p ∧ j = i then v else k.blocks.regions q j := by
  simp only [blocks]
  rcases eq_or_ne q p with rfl | hq
  · simp only [modify_procs_self, setVma_mmapVmas, true_and]
  · rw [modify_procs_ne k p _ hq, if_neg fun h => hq h.1]

theorem held_setVma_ne (hx : x ≠ .buf p i) :
    (k.modify p (setVma · i v)).blocks.held x = k.blocks.held x := by
  cases x with
  | task q => rfl
  | stack q => exact k.modify_field p (setVma · i v) Proc.kernelStack (fun _ => rfl) q
  | buf q j =>
    have hne : ¬ (q = p ∧ j = i) := fun h => hx (by rw [h.1, h.2])
    simp only [Blocks.held, regions_setVma, if_neg hne]

/-- A region table slot is overwritten: what it held before is out of consideration, and
what it holds now is nothing or a block nobody else owns. -/
theorem owns_setVma (h : k.blocks.Owns (S \ {.buf p i})) (hv : v.fileBuf ≠ 0 →
      k.heap v.fileBuf = true ∧ Unheld k.blocks.held (S \ {.buf p i}) v.fileBuf)
    (hidle : v.used = false → v.fileBuf = 0) :
    (k.modify p (setVma · i v)).blocks.Owns S := by
  have hself : (k.modify p (setVma · i v)).blocks.held (.buf p i) = v.fileBuf := by
    simp only [Blocks.held, regions_setVma, and_self, if_true]
  refine owns_replace h (fun y hy => held_setVma_ne hy) rfl rfl (hself.symm ▸ hv) ?_
  intro q j hq hused
  rw [regions_setVma] at hused ⊢
  split at hused
  case isTrue hc =>
    rw [if_pos hc]
    exact hidle hused
  case isFalse hc =>
    rw [if_neg hc]
    refine h.idle q j ⟨hq, ?_⟩ hused
    intro he
    injection he with hq hj
    exact hc ⟨hq, hj⟩

theorem owns_setStack {stk : Nat} {f : Proc → Proc} (h : k.blocks.Owns S)
    (hstk : k.heap stk = true ∧ Unheld k.blocks.held S stk) (hs : ∀ t, (f t).kernelStack = stk)
    (hv : ∀ t, (f t).mmapVmas = t.mmapVmas) : (k.modify p f).blocks.Owns S := by
  have hregion (q : Nat) : (k.modify p f).blocks.regions q = k.blocks.regions q :=
    k.modify_field p f Proc.mmapVmas hv q
  have hself : (k.modify p f).blocks.held (.stack p) = stk := by
    show ((k.modify p f).procs p).kernelStack = stk
    rw [modify_procs_self, hs]
  refine owns_replace (x := .stack p) (owns_mono h fun _ hx => hx.1) ?_ rfl rfl ?_ ?_
  · intro y hy
    cases y with
    | task q => rfl
    | stack q =>
      have hq : q ≠ p := fun he => hy (he ▸ rfl)
      exact congrArg Proc.kernelStack (k.modify_procs_ne p f hq)
    | buf q j => exact congrArg Vma.fileBuf (congrFun (hregion q) j)
  · rw [hself]
    exact fun _ => ⟨hstk.1, fun x hx => hstk.2 x hx.1⟩
  · intro q j hq
    rw [hregion q]
    exact h.idle q j hq

/-- Regions change in what ownership does not depend on. -/
theorem owns_modify_regions {f : Proc → Proc} (h : k.blocks.Owns S)
    (hs : ∀ t, (f t).kernelStack = t.kernelStack)
    (hb : ∀ t i, ((f t).mmapVmas i).fileBuf = (t.mmapVmas i).fileBuf)
    (hu : ∀ t i, ((f t).mmapVmas i).used = (t.mmapVmas i).used) :
    (k.modify p f).blocks.Owns S := by
  have hbuf (q : Nat) (j : Fin procMaxVmas) :
      ((k.modify p f).blocks.regions q j).fileBuf = (k.blocks.regions q j).fileBuf :=
    k.modify_field p f (fun t => (t.mmapVmas j).fileBuf) (fun t => hb t j) q
  have hused (q : Nat) (j : Fin procMaxVmas) :
      ((k.modify p f).blocks.regions q j).used = (k.blocks.regions q j).used :=
    k.modify_field p f (fun t => (t.mmapVmas j).used) (fun t => hu t j) q
  refine ⟨h.exclusive.shrink fun x hx _ => ⟨hx, ?_⟩, ?_, h.frees⟩
  · cases x with
    | task q => rfl
    | stack q => exact k.modify_field p f Proc.kernelStack hs q
    | buf q j => exact hbuf q j
  · intro q j hq
    rw [hbuf, hused]
    exact h.idle q j hq

/-- A region gives its buffer up. -/
theorem owns_dropBuf (h : k.blocks.Owns S) (hp : .buf p i ∈ S) (hv : v.fileBuf = 0) :
    ((k.kfree ((k.procs p).mmapVmas i).fileBuf).modify p (setVma · i v)).blocks.Owns S :=
  owns_setVma (owns_kfree_held h hp fun _ hy => hy) (fun hne => absurd hv hne) fun _ => hv

end Rules

end Kernel
end Nyx.Process
