import Nyx.Descriptors.Deaths

/-! The descriptors of a thread group whose leader dies.

The threads of a group use the descriptors of its leader, so `tg_reassign_leader` hands them
to the heir when the leader is freed. But `SYS_EXIT` and all that frees a task call
`close_proc_fds` before: the table the heir takes over is closed. -/
namespace Nyx.Process.Roster
variable {r : Roster} {p q : Nat}

/-- The entry of `q` has no descriptor open. -/
def Shut (r : Roster) (q : Nat) : Prop := ∀ i, (r.entry q).ufdInuse i = false

theorem shut_close (hq : r.Shut q) : (r.close p).Shut q := by
  intro i
  show (Function.update r.entry p (r.entry p).shut q).ufdInuse i = false
  rw [Function.update_apply]
  split
  · rfl
  · exact hq i

/-- A closed table is handed over closed, and no other table is opened by it. -/
theorem shut_reassign (hp : r.Shut p) (hq : r.Shut q ∨ r.table.find? (r.inGroup p) = some q) :
    (r.reassign p).Shut q := by
  simp only [reassign]
  cases hfind : r.table.find? (r.inGroup p) with
  | none =>
    rw [hfind] at hq
    exact hq.resolve_right fun h => by cases h
  | some heir =>
    intro i
    simp only [handed]
    split
    case isTrue => exact hp i
    case isFalse hne =>
      have hq' : r.Shut q := hq.resolve_right fun h => hne (Option.some.inj (h.symm.trans hfind))
      split
      · rfl
      · split <;> exact hq' i

theorem shut_freed (hq : r.Shut q ∨ r.table.find? (r.inGroup p) = some q) :
    ((r.close p).reassign p).Shut q := by
  refine shut_reassign close_self (hq.imp shut_close fun h => ?_)
  have hgroup : (r.close p).inGroup p = r.inGroup p := by
    funext q
    exact r.close_inGroup p q
  rw [hgroup]
  exact h

end Nyx.Process.Roster

namespace Nyx.Descriptors
open Nyx.Process Nyx.Process.Kernel Nyx.Lib

namespace Io
variable {s : Io} {p q : Nat}

theorem closing_roster (s : Io) (p : Nat) : (s.closing p).kernel.roster = s.kernel.roster :=
  (closesAll_foldl _ s).roster

theorem shut_reapEntry (i : Nat)
    (hq : s.kernel.roster.Shut q ∨ s.kernel.table.find? (s.kernel.inGroup p) = some q) :
    (s.reapEntry p i).kernel.roster.Shut q := by
  have hroster : (s.reapEntry p i).kernel.roster =
      ((s.kernel.roster.close p).reassign p).reap i := by
    rw [← s.closing_roster p]
    exact roster_reapEntry _ p i
  rw [hroster]
  exact Roster.shut_freed hq

theorem shut_reapFrom (turns : Nat) : ∀ (s : Io) (i : Nat), s.kernel.roster.Shut q →
    (s.reapFrom turns i).kernel.roster.Shut q := by
  induction turns with
  | zero => exact fun s i h => h
  | succ turns ih =>
    intro s i h
    simp only [reapFrom]
    split
    · exact h
    split
    · exact ih _ _ (shut_reapEntry i (.inl h))
    · exact ih _ _ h

end Io

/-- How a dead leader is freed: by a pass of `do_waitpid`, by the scan of `reap_zombies` that
has come to entry `i` with `turns` more to go, by `reap_user_process`. -/
inductive Reap where
  | waitpid (self : Nat) (wpid options : BitVec 32)
  | reapZombies (turns i : Nat)
  | reapUserProcess

namespace Reap

variable (s : Io)

def run (leader : Nat) : Reap → Io
  | waitpid self wpid options => s.doWaitpid self wpid options
  | reapZombies turns i => s.reapFrom (turns + 1) i
  | reapUserProcess => s.afterClosing leader (·.reapUserProcess leader)

def Frees (leader : Nat) : Reap → Prop
  | waitpid self wpid _ => s.kernel.collected self wpid = some leader
  | reapZombies _ i => s.kernel.table[i]? = some leader ∧ s.kernel.reapable leader i = true
  | reapUserProcess => leader ∈ s.kernel.table

instance (s : Io) (leader : Nat) : ∀ reap, Decidable (Frees s leader reap)
  | waitpid .. => inferInstanceAs (Decidable (_ = _))
  | reapZombies .. => inferInstanceAs (Decidable (_ ∧ _))
  | reapUserProcess => inferInstanceAs (Decidable (_ ∈ _))

/-- Whom `tg_reassign_leader` chooses. `reap_user_process` calls it when the leader is already
out of the table. -/
def heir (leader : Nat) : Reap → Option Nat
  | reapUserProcess =>
    (swapRemove s.kernel.table (s.kernel.table.idxOf leader)).find? (s.kernel.inGroup leader)
  | _ => s.kernel.table.find? (s.kernel.inGroup leader)

end Reap

/-- Whichever way the leader is freed, the heir is left with no descriptor. -/
theorem heir_shut (s : Io) (leader : Nat) (reap : Reap) (hfrees : reap.Frees s leader)
    {heir : Nat} (hheir : reap.heir s leader = some heir) :
    (reap.run s leader).kernel.roster.Shut heir := by
  cases reap with
  | waitpid self wpid options =>
    simp only [Reap.run, Io.doWaitpid]
    split
    case h_1 zi hzi =>
      have hchild : s.kernel.table.getD zi 0 = leader :=
        Option.some.inj ((collected_of_findIdx hzi).2.symm.trans hfrees)
      rw [hchild]
      exact Io.shut_reapEntry zi (.inr hheir)
    case h_2 hnone => cases (collected_none_of_findIdx hnone).symm.trans hfrees
  | reapZombies turns i =>
    simp only [Reap.run, Io.reapFrom, hfrees.1, hfrees.2, if_true]
    exact Io.shut_reapFrom turns _ i (Io.shut_reapEntry i (.inr hheir))
  | reapUserProcess =>
    have htable : (s.closing leader).kernel.table = s.kernel.table :=
      congrArg Roster.table (s.closing_roster leader)
    have hroster := roster_reapUserProcess (s.closing leader).kernel leader (htable ▸ hfrees)
    rw [s.closing_roster, htable] at hroster
    rw [show (Reap.run s leader .reapUserProcess).kernel.roster = _ from hroster]
    exact Roster.shut_freed (r := s.kernel.roster.remove _) (.inr hheir)

/-- The descriptors open in the leader's table in `s` are open in the heir's in `s'`, with the
same handle and offset, and none was closed since. -/
structure Survives (s s' : Io) (leader heir : Nat) : Prop where
  kept : ∀ i, (s.kernel.procs leader).ufdInuse i = true → (s'.kernel.procs heir).ufdInuse i = true ∧
      (s'.kernel.procs heir).ufdHandle i = (s.kernel.procs leader).ufdHandle i ∧
      (s'.kernel.procs heir).ufdOffset i = (s.kernel.procs leader).ufdOffset i
  held : ∀ i, (s.kernel.procs leader).ufdInuse i = true →
    releaseCall ((s.kernel.procs leader).ufdHandle i) ∉ s'.calls.drop s.calls.length

/-- The leader of a group exits, anything happens, and it is freed: its descriptors survive
exactly when it had none. -/
theorem leader_descriptors_survive_iff (s : Io) (leader heir : Nat) (code : BitVec 32)
    (between : List Sys) (reap : Reap)
    (hfrees : reap.Frees (run Io.step (s.exit leader code) between) leader)
    (hheir : reap.heir (run Io.step (s.exit leader code) between) leader = some heir) :
    Survives s (reap.run (run Io.step (s.exit leader code) between) leader) leader heir ↔
      ∀ i, (s.kernel.procs leader).ufdInuse i = false := by
  refine ⟨fun h i => Bool.eq_false_iff.mpr fun hi => ?_, fun h => ⟨fun i hi => ?_, fun i hi => ?_⟩⟩
  · have hopen := (h.kept i hi).1
    have hshut : (((reap.run _ leader).kernel.procs heir).ufdInuse i) = false :=
      heir_shut _ leader reap hfrees hheir i
    rw [hshut] at hopen
    cases hopen
  · rw [h i] at hi
    cases hi
  · rw [h i] at hi
    cases hi

/-- A process (at 48) opens a pipe and starts a thread (at 80). -/
def threaded : Io :=
  .after 16 [.process (.load (.loaded 32 0x400000#64 0x500000#64) 0x7FF000#64 48 64),
    .pipe 48 .good, .process (.clone 48 0x400000#64 0x600000#64 0 0x100#64 80 96)]

/-- The thread closes both ends before the process exits: there is nothing to lose. -/
theorem closed_pipe_survives : Survives (run Io.step threaded [.close 80 3#32, .close 80 4#32])
      (Reap.run ((run Io.step threaded [.close 80 3#32, .close 80 4#32]).exit 48 0) 48
        (.reapZombies 2 1)) 48 80 :=
  (leader_descriptors_survive_iff _ 48 80 0 [] (.reapZombies 2 1) (by decide +kernel)
    (by decide +kernel)).mpr (by decide +kernel)

/-- The process exits and `reap_zombies` frees it: the thread runs on without the pipe, whose
two ends were closed. -/
theorem thread_loses_pipe : (threaded.kernel.procs 48).ufdInuse ⟨3, by decide⟩ = true ∧
      ((Reap.run (threaded.exit 48 0) 48 (.reapZombies 2 1)).kernel.procs 80).state = .run ∧
      ((Reap.run (threaded.exit 48 0) 48 (.reapZombies 2 1)).kernel.procs 80).ufdInuse
        ⟨3, by decide⟩ = false ∧
      ((Reap.run (threaded.exit 48 0) 48 (.reapZombies 2 1)).pipes ⟨0, by decide⟩).used = false ∧
      ¬ Survives threaded (Reap.run (threaded.exit 48 0) 48 (.reapZombies 2 1)) 48 80 := by
  refine ⟨by decide +kernel, by decide +kernel, by decide +kernel, by decide +kernel, fun h => ?_⟩
  exact absurd (h.kept ⟨3, by decide⟩ (by decide +kernel)).1 (by decide +kernel)

end Nyx.Descriptors
