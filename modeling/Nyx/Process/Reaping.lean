import Nyx.Process.Cores

/-! What reaping does to the process table and to the index of the running task.

Three functions free tasks: `reap_zombies`, `do_waitpid` and `reap_user_process`. All move the
last entry into the freed slot; only the first two let `current_idx` follow it. -/
namespace Nyx.Process
namespace Kernel
open Nyx.Lib

/-- `get_current_process` on CPU 0. -/
def getCurrentProcess (k : Kernel) : Option Nat := k.table[k.currentIdx]?

/-- The entries the scan of `reap_zombies` frees, in order. -/
def reapedFrom (k : Kernel) : (turns i : Nat) → List Nat
  | 0, _ => []
  | turns + 1, i =>
    match k.table[i]? with
    | none => []
    | some p => if k.reapable p i then p :: (k.reapEntry p i).reapedFrom turns i
      else k.reapedFrom turns (i + 1)

/-- The child a pass of `do_waitpid` collects. -/
def collected (k : Kernel) (self : Nat) (wpid : BitVec 32) : Option Nat :=
  k.table.find? fun p => k.awaited self wpid p && (k.procs p).state == .zombie

end Kernel

/-- A call that frees tasks. -/
inductive Removal where
  | zombies
  | waitpid (self : Nat) (wpid options : BitVec 32)
  | user (p : Nat)

namespace Removal
open Kernel

def run (k : Kernel) : Removal → Kernel
  | zombies => k.reapZombies
  | waitpid self wpid options => (k.doWaitpid self wpid options).1
  | user p => k.reapUserProcess p

/-- The entries it frees. -/
def gone (k : Kernel) : Removal → List Nat
  | zombies => k.reapedFrom k.table.length 0
  | waitpid self wpid _ => (k.collected self wpid).toList
  | user p => if p ∈ k.table then [p] else []

end Removal

/-- The running task is the same, and the table is what it was without the entries that
are gone, each of them once. -/
structure SameTasks (k : Kernel) (gone : List Nat) (k' : Kernel) : Prop where
  current : k'.getCurrentProcess = k.getCurrentProcess
  entries : k.table.Perm (gone ++ k'.table)
  once : k'.table.Nodup

namespace SameTasks
open Kernel
variable {k k' : Kernel}

theorem of_eq (hn : k.table.Nodup) (htable : k'.table = k.table)
    (hidx : k'.currentIdx = k.currentIdx) : SameTasks k [] k' := by
  refine ⟨?_, ?_, ?_⟩
  · rw [getCurrentProcess, htable, hidx]
    rfl
  · rw [htable]
    exact .refl _
  · rwa [htable]

theorem trans {k'' : Kernel} {a b : List Nat} (h : SameTasks k a k')
    (h' : SameTasks k' b k'') : SameTasks k (a ++ b) k'' := by
  refine ⟨h'.current.trans h.current, ?_, h'.once⟩
  rw [List.append_assoc]
  exact h.entries.trans (h'.entries.append_left a)

end SameTasks

namespace Kernel
open Nyx.Lib

theorem tgReassignLeader_currentIdx (k : Kernel) (p : Nat) :
    (k.tgReassignLeader p).currentIdx = k.currentIdx := by
  simp only [tgReassignLeader]
  split <;> rfl

theorem tgReassignLeader_field {α : Type} (k : Kernel) (p : Nat) (g : Proc → α)
    (hinherit : ∀ d t, g (inherit d t) = g t) (hleft : ∀ t, g (relinquish t) = g t)
    (htg : ∀ (t : Proc) pid, g {t with tgid := pid} = g t) (q : Nat) :
    g ((k.tgReassignLeader p).procs q) = g (k.procs q) := by
  simp only [tgReassignLeader]
  split
  · rfl
  rw [modify_field _ _ _ g fun t => htg t 0]
  have hhanded (k' : Kernel) (pid : BitVec 32) :
      g ((k'.repoint p pid).procs q) = g (k'.procs q) := by
    simp only [repoint]
    split
    · exact htg _ _
    · rfl
  rw [hhanded, modify_field _ _ _ g hleft, modify_field _ _ _ g fun t => hinherit _ t]

theorem sameTasks_reapEntry {k : Kernel} (hn : k.table.Nodup) {p i : Nat}
    (hi : k.table[i]? = some p) (hne : i ≠ k.currentIdx) :
    SameTasks k [p] (k.reapEntry p i) := by
  have hidx : (k.reapEntry p i).currentIdx =
      if k.currentIdx = k.table.length - 1 then i else k.currentIdx := by
    have hcores : _ = Cores.currentIdx _ := congrArg Cores.currentIdx (k.cores_reapEntry p i)
    rw [show (k.reapEntry p i).currentIdx = _ from hcores]
    simp only [Cores.reap, cores, tgReassignLeader_currentIdx, tgReassignLeader_table,
      closeProcFds_table]
    rfl
  refine ⟨?_, ?_, ?_⟩
  · have hlt : i < k.table.length := (List.getElem?_eq_some_iff.mp hi).1
    rw [getCurrentProcess, reapEntry_table, hidx]
    split
    case isTrue hlast =>
      -- The current entry is the one that moves, and the index moves with it.
      rw [swapRemove_getElem?_self (by omega), ← hlast]
      rfl
    case isFalse hlast => exact swapRemove_getElem?_ne hne.symm (by omega)
  · rw [reapEntry_table]
    exact swapRemove_perm hi
  · rw [reapEntry_table]
    exact nodup_swapRemove hn hi

theorem sameTasks_reapFrom (turns : Nat) : ∀ (k : Kernel) (i : Nat), k.table.Nodup →
    SameTasks k (k.reapedFrom turns i) (k.reapFrom turns i) := by
  induction turns with
  | zero => exact fun k i hn => .of_eq hn rfl rfl
  | succ turns ih =>
    intro k i hn
    simp only [reapFrom, reapedFrom]
    cases hi : k.table[i]? with
    | none => exact .of_eq hn rfl rfl
    | some p =>
      dsimp only
      split
      case isTrue hr =>
        have hne : i ≠ k.currentIdx := by
          simp only [reapable, Bool.and_eq_true, bne_iff_ne] at hr
          exact hr.1.2
        have hone := sameTasks_reapEntry hn hi hne
        exact hone.trans (ih _ i hone.once)
      case isFalse => exact ih k (i + 1) hn

section
variable {k : Kernel} {self : Nat} {wpid : BitVec 32}

/-- The index `do_waitpid` finds is that of the child it collects. -/
theorem collected_of_findIdx {zi : Nat}
    (h : k.table.findIdx? (fun p => k.awaited self wpid p && (k.procs p).state == .zombie) =
      some zi) :
    k.table[zi]? = some (k.table.getD zi 0) ∧ k.collected self wpid = some (k.table.getD zi 0) := by
  have hlt := (List.findIdx?_eq_some_iff_findIdx_eq.mp h).1
  have hget : k.table[zi]? = some (k.table.getD zi 0) := by
    rw [List.getD_eq_getElem?_getD, List.getElem?_eq_getElem hlt]
    rfl
  refine ⟨hget, ?_⟩
  rw [collected, List.find?_eq_bind_findIdx?_getElem?, h]
  exact hget

theorem collected_none_of_findIdx
    (h : k.table.findIdx? (fun p => k.awaited self wpid p && (k.procs p).state == .zombie) =
      none) : k.collected self wpid = none := by
  rw [collected, List.find?_eq_bind_findIdx?_getElem?, h]
  rfl

theorem collected_none_of_any (h : k.table.any (k.awaited self wpid) = false) :
    k.collected self wpid = none := by
  simp only [collected, List.find?_eq_none, Bool.and_eq_true, not_and]
  intro p hp ha
  simp only [List.any_eq_false] at h
  exact absurd ha (h p hp)

theorem sameTasks_doWaitpid (hn : k.table.Nodup) (options : BitVec 32)
    (hr : ∀ c ∈ k.getCurrentProcess, c ∉ (k.collected self wpid).toList) :
    SameTasks k (k.collected self wpid).toList (k.doWaitpid self wpid options).1 := by
  simp only [doWaitpid]
  split
  case isTrue hnone =>
    rw [collected_none_of_any hnone]
    exact .of_eq hn rfl rfl
  case isFalse =>
    split
    case h_1 zi hzi =>
      obtain ⟨hget, hcol⟩ := collected_of_findIdx hzi
      rw [hcol] at hr ⊢
      refine sameTasks_reapEntry hn hget fun he => ?_
      have hcur : k.getCurrentProcess = some (k.table.getD zi 0) := by
        rw [getCurrentProcess, ← he]
        exact hget
      exact hr _ hcur (List.mem_singleton_self _)
    case h_2 hzi =>
      rw [collected_none_of_findIdx hzi]
      split
      · exact .of_eq hn rfl rfl
      · split <;> exact .of_eq hn rfl rfl

end

section
variable {k : Kernel} {p : Nat}

theorem reapUserProcess_table (hp : p ∈ k.table) :
    (k.reapUserProcess p).table = swapRemove k.table (k.table.idxOf p) := by
  rw [reapUserProcess_eq hp, kfree_table, tearDown_table, removeEntry_table, closeProcFds_table]

theorem reapUserProcess_currentIdx (k : Kernel) (p : Nat) :
    (k.reapUserProcess p).currentIdx = k.currentIdx := by
  simp only [reapUserProcess]
  have hsame (k₁ : Kernel) : ((k₁.tearDown p).kfree p).currentIdx = k₁.currentIdx := by
    have hcores := (cores_kfree (k₁.tearDown p) p).trans (k₁.cores_tearDown p)
    exact (congrArg Cores.currentIdx hcores).trans (k₁.tgReassignLeader_currentIdx p)
  rw [hsame]
  split <;> rfl

/-- The last entry moves and the index does not follow: what was current is lost exactly
when it was the last. -/
theorem sameTasks_reapUserProcess_iff (hn : k.table.Nodup) (hp : p ∈ k.table)
    (hc : k.currentIdx < k.table.length) (hne : k.getCurrentProcess ≠ some p) :
    SameTasks k [p] (k.reapUserProcess p) ↔ k.currentIdx + 1 ≠ k.table.length := by
  have hi : k.table[k.table.idxOf p]? = some p := List.getElem?_idxOf hp
  have hidx : k.currentIdx ≠ k.table.idxOf p := by
    intro he
    rw [getCurrentProcess, he] at hne
    exact hne hi
  constructor
  · intro h hlast
    have hcur := h.current
    rw [getCurrentProcess, getCurrentProcess, reapUserProcess_currentIdx,
      reapUserProcess_table hp, List.getElem?_eq_getElem hc] at hcur
    have hlt := (List.getElem?_eq_some_iff.mp hcur).1
    rw [length_swapRemove] at hlt
    omega
  · intro hlast
    refine ⟨?_, ?_, ?_⟩
    · rw [getCurrentProcess, reapUserProcess_currentIdx, reapUserProcess_table hp]
      exact swapRemove_getElem?_ne hidx hlast
    · rw [reapUserProcess_table hp]
      exact swapRemove_perm hi
    · rw [reapUserProcess_table hp]
      exact nodup_swapRemove hn hi

theorem sameTasks_reapUserProcess_absent (hn : k.table.Nodup) (hp : p ∉ k.table) :
    SameTasks k [] (k.reapUserProcess p) := by
  refine .of_eq hn ?_ (k.reapUserProcess_currentIdx p)
  have hclosed : p ∉ (k.closeProcFds p).table := hp
  simp only [reapUserProcess, kfree_table, tearDown_table]
  rw [if_neg hclosed, closeProcFds_table]

end
end Kernel

/-- Reaping other tasks keeps the running one and loses no entry, except that
`reap_user_process` loses the running task when it is the last entry of the table. -/
theorem reaping_keeps_identity_iff (k : Kernel) (hn : k.table.Nodup)
    (hc : k.currentIdx < k.table.length) (r : Removal)
    (hr : ∀ c ∈ k.getCurrentProcess, c ∉ r.gone k) :
    SameTasks k (r.gone k) (r.run k) ↔
      ∀ p ∈ k.table, r = .user p → k.currentIdx + 1 ≠ k.table.length := by
  cases r with
  | zombies =>
    exact ⟨fun _ p _ he => Removal.noConfusion he, fun _ => Kernel.sameTasks_reapFrom _ k 0 hn⟩
  | waitpid self wpid options =>
    exact ⟨fun _ p _ he => Removal.noConfusion he, fun _ => Kernel.sameTasks_doWaitpid hn options hr⟩
  | user p =>
    by_cases hp : p ∈ k.table
    · have hgone : (Removal.user p).gone k = [p] := if_pos hp
      have hne : k.getCurrentProcess ≠ some p := fun he =>
        hr p he (hgone ▸ List.mem_singleton_self p)
      rw [hgone]
      refine (Kernel.sameTasks_reapUserProcess_iff hn hp hc hne).trans ⟨fun h _ _ _ => h, ?_⟩
      exact fun h => h p hp rfl
    · have hgone : (Removal.user p).gone k = [] := if_neg hp
      rw [hgone]
      refine ⟨fun _ q hq he => ?_, fun _ => Kernel.sameTasks_reapUserProcess_absent hn hp⟩
      cases he
      exact absurd hq hp

/-- The first task and two kernel threads, with the scheduler's index at `current`. -/
def threeTasks (current : Nat) : Kernel :=
  {after 16 [.createProcess true 32 48, .createProcess true 64 80] with currentIdx := current}

theorem reaping_keeps_identity_first_current :
    SameTasks (threeTasks 0) ((Removal.user 32).gone (threeTasks 0))
      ((Removal.user 32).run (threeTasks 0)) :=
  (reaping_keeps_identity_iff (threeTasks 0) (by decide) (by decide) (.user 32) (by decide)).mpr
    fun _ _ _ => by decide

/-- The last thread runs and the other one is freed: then there is no current process. -/
theorem reaping_loses_last_current : (threeTasks 2).getCurrentProcess = some 64 ∧
      ((Removal.user 32).run (threeTasks 2)).getCurrentProcess = none := by
  decide

end Nyx.Process
