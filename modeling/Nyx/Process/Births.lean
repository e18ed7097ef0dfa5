import Nyx.Process.Cores
import Nyx.Process.Snapshots

/-! How tasks come into the table.

Every creation either puts one new record at the end of the table or leaves the entries of
the table as they were, having spent a pid at most. The records of a running kernel are
heap blocks, so a new one is no entry of the table yet (`newTask_outside`). -/
namespace Nyx.Process

/-- The record at `p` is filled in with `new`, its pid is spent and these calls are made. -/
def Cores.begin (c : Cores) (p : Nat) (new : Core) (calls : List FdCall) : Cores :=
  { c with
    nextPid := c.nextPid + 1
    fdCalls := c.fdCalls ++ calls
    core := Function.update c.core p new }

namespace Kernel

def pipeIncrefs (parent : Proc) : List FdCall :=
  ((List.finRange procMaxFds).filter (inheritsFd parent)).map fun i =>
    .pipeIncref (ufdPipeId (parent.ufdHandle i)) (ufdPipeIsWrite (parent.ufdHandle i))

theorem cores_increfPipes (k : Kernel) (parent : Proc) : (k.increfPipes parent).cores =
    {k.cores with fdCalls := k.fdCalls ++ pipeIncrefs parent} := rfl

/-- A task with the record `new` enters the table. -/
structure Born (k k' : Kernel) (p : Nat) (new : Core) (calls : List FdCall) : Prop where
  outside : p ∉ k.table
  nonnull : p ≠ 0
  cores : k'.cores = {k.cores.begin p new calls with table := k.table ++ [p]}

/-- Nobody enters: nothing was begun, or the record was given up. -/
def Aborted (k k' : Kernel) (calls : List FdCall) : Prop :=
  k'.cores = k.cores ∨ ∃ p ∉ k.table, ∃ new, k'.cores = k.cores.begin p new calls

section
variable {k : Kernel} {block : Nat} {fill : BitVec 32 → Proc}

theorem cores_newTask_null (hp : (k.newTask block fill).2 = 0) :
    (k.newTask block fill).1.cores = k.cores := by
  simp only [newTask] at hp ⊢
  split at hp
  case isTrue hnull =>
    rw [if_pos hnull]
    exact k.cores_kmalloc block
  case isFalse hnull => exact absurd hp hnull

theorem cores_newTask (hp : (k.newTask block fill).2 ≠ 0) :
    (k.newTask block fill).1.cores = Cores.begin k.cores (k.newTask block fill).2
      (fill (k.nextPid.setWidth 32)).core [] := by
  simp only [newTask] at hp ⊢
  split at hp
  · exact absurd rfl hp
  case isFalse hnull =>
    have hsame := k.cores_kmalloc block
    have hnext : (k.kmalloc block).1.nextPid = k.nextPid := congrArg Cores.nextPid hsame
    rw [if_neg hnull, ← hsame, ← hnext]
    simp only [Cores.begin, cores, modify, List.append_nil]
    congr 1
    funext q
    rw [Function.update_apply, Function.update_apply]
    split <;> rfl

/-- Work on a begun record that the table does not show, and then its entry. -/
theorem born_append {k' : Kernel} {p : Nat} {new : Core} {calls : List FdCall}
    (hp : p ∉ k.table) (h0 : p ≠ 0) (hc : k'.cores = k.cores.begin p new calls) :
    Born k (k'.append p) p new calls := by
  refine ⟨hp, h0, ?_⟩
  have htable : k'.table = k.table := congrArg Cores.table hc
  rw [← hc, ← htable]
  rfl

end

section
variable {k : Kernel} (hk : k.blocks.Owned)
include hk

theorem initProcess_outcome (block : Nat) : Aborted k (k.initProcess block) [] ∨
      ∃ p, Born k (k.initProcess block) p (kernelProc (k.nextPid.setWidth 32)).core [] := by
  simp only [initProcess]
  split
  case isTrue hp => exact .inl (.inl (cores_newTask_null hp))
  case isFalse hp =>
    exact .inr ⟨_, born_append (newTask_outside hk hp fun _ => rfl) hp (cores_newTask hp)⟩

theorem createProcess_outcome (entry : Bool) (block stack : Nat) :
    Aborted k (k.createProcess entry block stack).1 [] ∨
      ∃ p, Born k (k.createProcess entry block stack).1 p
        (kernelProc (k.nextPid.setWidth 32)).core [] := by
  simp only [createProcess]
  split
  · exact .inl (.inl rfl)
  split
  case isTrue hp => exact .inl (.inl (cores_newTask_null hp))
  case isFalse hp =>
    have hout := newTask_outside hk hp fun _ => rfl
    have hbegun := cores_newTask hp
    split
    · have hstack := (cores_initTaskStack _ (k.newTask block kernelProc).2 stack .zero).trans hbegun
      split
      · exact .inr ⟨_, born_append hout hp hstack⟩
      · exact .inl (.inr ⟨_, hout, _, (cores_kfree ..).trans hstack⟩)
    · exact .inr ⟨_, born_append hout hp hbegun⟩

theorem createUserProcess_outcome (entry rsp : BitVec 64) (dir block stack : Nat) :
    ((k.createUserProcess entry rsp dir block stack).2 = 0 ∧
        Aborted k (k.createUserProcess entry rsp dir block stack).1 []) ∨
      Born k (k.createUserProcess entry rsp dir block stack).1
        (k.createUserProcess entry rsp dir block stack).2
        (userProc dir (k.nextPid.setWidth 32)).core [] := by
  simp only [createUserProcess]
  split
  · exact .inl ⟨rfl, .inl rfl⟩
  split
  case isTrue hp => exact .inl ⟨rfl, .inl (cores_newTask_null hp)⟩
  case isFalse hp =>
    have hout := newTask_outside hk hp fun _ => rfl
    have hstack := (cores_initTaskStack _ (k.newTask block (userProc dir)).2 stack
      (userFrame entry rsp)).trans (cores_newTask hp)
    split
    · exact .inr (born_append hout hp ((cores_build ..).trans hstack))
    · exact .inl ⟨rfl, .inr ⟨_, hout, _, (cores_kfree ..).trans hstack⟩⟩

end

section
variable {k k' : Kernel} {p : Nat} {new : Core} {calls : List FdCall}

/-- Preliminaries that the table does not show. -/
theorem Aborted.after {k₀ : Kernel} (hsame : k.cores = k₀.cores)
    (h : Aborted k k' calls) : Aborted k₀ k' calls := by
  have htable : k.table = k₀.table := congrArg Cores.table hsame
  rcases h with h | ⟨p, hp, new, h⟩
  · exact .inl (h.trans hsame)
  · exact .inr ⟨p, htable ▸ hp, new, hsame ▸ h⟩

theorem Born.after {k₀ : Kernel} (hsame : k.cores = k₀.cores) (h : Born k k' p new calls) :
    Born k₀ k' p new calls := by
  have htable : k.table = k₀.table := congrArg Cores.table hsame
  exact ⟨htable ▸ h.outside, h.nonnull, by rw [h.cores, hsame, htable]⟩

/-- What follows the entry, changing at most the new record. -/
theorem Born.before {k₁ : Kernel} {g : Core → Core} (h : Born k k' p new calls)
    (hsame : k₁.cores = k'.cores.modify p g) : Born k k₁ p (g new) calls := by
  refine ⟨h.outside, h.nonnull, hsame.trans ?_⟩
  simp only [h.cores, Cores.modify, Cores.begin, Function.update_self, Function.update_idem]

end

section
variable {k : Kernel} (hk : k.blocks.Owned)
include hk

theorem elfLoadArgs_outcome (load : Load) (rsp : BitVec 64) (block stack : Nat) :
    ((k.elfLoadArgs load rsp block stack).2 = 0 ∧
        Aborted k (k.elfLoadArgs load rsp block stack).1 []) ∨
      ∃ dir, Born k (k.elfLoadArgs load rsp block stack).1
        (k.elfLoadArgs load rsp block stack).2 (userProc dir (k.nextPid.setWidth 32)).core [] := by
  have hsame := k.cores_elfLoadImage load
  have howned := k.blocks_elfLoadImage load
  simp only [elfLoadArgs]
  split
  case h_1 k' he =>
    rw [he] at hsame
    exact .inl ⟨rfl, .inl hsame⟩
  case h_2 k' dir entry brk he =>
    rw [he] at hsame howned
    have hk' : k'.blocks.Owned := by
      rw [show k'.blocks = k.blocks from howned]
      exact hk
    have hnext : k'.nextPid = k.nextPid := congrArg Cores.nextPid hsame
    have hmade := createUserProcess_outcome hk' entry rsp dir block stack
    rw [hnext] at hmade
    split
    case h_1 k'' hc =>
      rw [hc] at hmade
      refine .inl ⟨rfl, ?_⟩
      rcases hmade with ⟨_, habort⟩ | hborn
      · rcases habort.after hsame with h | ⟨q, hq, new, h⟩
        · exact .inl ((cores_freePageDirectory ..).trans h)
        · exact .inr ⟨q, hq, new, (cores_freePageDirectory ..).trans h⟩
      · exact absurd rfl hborn.nonnull
    case h_2 k'' p hc =>
      rw [hc] at hmade
      rcases hmade with ⟨h0, _⟩ | hborn
      · exact absurd h0 (Nat.succ_ne_zero p)
      refine .inr ⟨dir, (hborn.after hsame).outside, hborn.nonnull, ?_⟩
      refine (cores_modify _ _ _ ?_).trans (hborn.after hsame).cores
      exact fun _ => rfl

theorem spawnUserPathArgs_outcome (parent : Option Nat) (load : Load) (rsp : BitVec 64)
    (block stack : Nat) :
    Aborted k (k.spawnUserPathArgs parent load rsp block stack).1 [] ∨
      ∃ p dir ppid, Born k (k.spawnUserPathArgs parent load rsp block stack).1 p
        {(userProc dir (k.nextPid.setWidth 32)).core with ppid := ppid} [] := by
  have hloaded := elfLoadArgs_outcome hk load rsp block stack
  simp only [spawnUserPathArgs]
  split
  case isTrue hp =>
    rcases hloaded with ⟨_, habort⟩ | ⟨dir, hborn⟩
    · exact .inl habort
    · exact absurd hp hborn.nonnull
  case isFalse hp =>
    rcases hloaded with ⟨h0, _⟩ | ⟨dir, hborn⟩
    · exact absurd h0 hp
    generalize Option.getD _ _ = ppid
    refine .inr ⟨_, dir, ppid, hborn.before (g := fun c => {c with ppid := ppid}) ?_⟩
    apply cores_modify_core
    exact fun _ => rfl

theorem doFork_outcome (self dirChoice block stack : Nat) (bufs : Fin procMaxVmas → Nat) :
    Aborted k (k.doFork self dirChoice block stack bufs).1 (pipeIncrefs (k.procs self)) ∨
      ∃ p dir, Born k (k.doFork self dirChoice block stack bufs).1 p
        (forkedProc (k.procs self) dir (k.nextPid.setWidth 32)).core
        (pipeIncrefs (k.procs self)) := by
  have hdirs := k.cores_allocPageDirectory dirChoice
  have hnext : (k.allocPageDirectory dirChoice).1.nextPid = k.nextPid :=
    congrArg Cores.nextPid hdirs
  have hk' : (k.allocPageDirectory dirChoice).1.blocks.Owned := by
    rwa [blocks_allocPageDirectory]
  simp only [doFork]
  split
  · exact .inl (.inl rfl)
  split
  · exact .inl (.inl hdirs)
  split
  case isTrue hp =>
    exact .inl (.inl ((cores_freePageDirectory ..).trans ((cores_newTask_null hp).trans hdirs)))
  case isFalse hp =>
    have hout := newTask_outside hk' hp fun _ => rfl
    rw [allocPageDirectory_table] at hout
    have hbegun := (cores_newTask hp).trans (congrArg (Cores.begin · _ _ _) hdirs)
    rw [hnext] at hbegun
    generalize (newTask _ _ _).2 = child at hout hp hbegun ⊢
    generalize (newTask _ _ _).1 = k₁ at hbegun ⊢
    have hshared : ((k₁.dupBufs child bufs).increfPipes (k.procs self)).cores =
        Cores.begin k.cores child (forkedProc (k.procs self)
          (k.allocPageDirectory dirChoice).2 (k.nextPid.setWidth 32)).core
          (pipeIncrefs (k.procs self)) := by
      have hbufs := (k₁.cores_dupBufs child bufs).trans hbegun
      generalize k₁.dupBufs child bufs = k₂ at hbufs ⊢
      have hcalls : k₂.fdCalls = k.fdCalls := by
        have hbase : k₂.fdCalls = k.fdCalls ++ [] := congrArg Cores.fdCalls hbufs
        rwa [List.append_nil] at hbase
      rw [cores_increfPipes, hcalls, hbufs]
      rfl
    have hstack := (cores_initTaskStack _ child stack (forkedFrame (k.procs self).frame)).trans
      hshared
    split
    · refine .inr ⟨child, _, born_append hout hp (((cores_modify _ _ _ ?_).trans
        (cores_modify _ _ _ ?_)).trans hstack)⟩
      · exact fun _ => rfl
      · exact fun _ => rfl
    · exact .inl (.inr ⟨child, hout, _,
        ((cores_kfree ..).trans (cores_freePageDirectory ..)).trans hstack⟩)

theorem doClone_outcome (self : Nat) (fn stack arg flags : BitVec 64) (block kstack : Nat) :
    Aborted k (k.doClone self fn stack arg flags block kstack).1 [] ∨
      ∃ p, Born k (k.doClone self fn stack arg flags block kstack).1 p
        (clonedProc (k.procs self) (k.procs (k.tgLeader self)).pid
          (k.nextPid.setWidth 32)).core [] := by
  simp only [doClone]
  split
  · exact .inl (.inl rfl)
  split
  case isTrue hp => exact .inl (.inl (cores_newTask_null hp))
  case isFalse hp =>
    have hout := newTask_outside hk hp fun _ => rfl
    have hstack := (cores_initTaskStack _ (k.newTask block (clonedProc (k.procs self)
      (k.procs (k.tgLeader self)).pid)).2 kstack (threadFrame fn stack arg)).trans
      (cores_newTask hp)
    split
    · refine .inr ⟨_, born_append hout hp (((cores_modify _ _ _ ?_).trans
        (cores_modify _ _ _ ?_)).trans ((cores_build ..).trans hstack))⟩
      · exact fun _ => rfl
      · exact fun _ => rfl
    · exact .inl (.inr ⟨_, hout, _, (cores_kfree ..).trans hstack⟩)

end
end Kernel
end Nyx.Process
