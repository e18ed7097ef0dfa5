import Nyx.Process.SignalState

/-! `SIGKILL`.

`signal_raise` wakes a blocked task but leaves a stopped one stopped, whatever the signal, and
`signal_dispatch` picks one signal per return to ring 3, the lowest-numbered. So `SIGKILL` is
held off by a stop and by a signal below 9 that is caught or ignored, and it is not
otherwise (`sigkill_ends_iff`). -/
namespace Nyx.Process
open Nyx.Lib

namespace Kernel

/-! ### The state of a task that falls -/

section
variable {k : Kernel} {p : Nat}

theorem wakeWaiters_state (child : Nat) (h : (k.procs p).state ≠ .blocked) :
    ((k.wakeWaiters child).procs p).state = (k.procs p).state := by
  simp only [wakeWaiters]
  split
  · rfl
  split
  · rfl
  case h_2 parent _ =>
    split
    case isTrue hb =>
      have hne : p ≠ parent := fun he => h (he ▸ hb.1)
      rw [modify_procs_ne _ _ _ hne]
    case isFalse => rfl

theorem exit_state (k : Kernel) (p : Nat) (code : BitVec 32) (close : Bool) :
    ((k.exit p code close).procs p).state = .zombie := by
  simp only [exit]
  generalize (if close = true then _ else _) = k₁
  rw [wakeWaiters_state]
  all_goals rw [modify_procs_self]
  exact PState.noConfusion

theorem stop_state (k : Kernel) (p : Nat) (s : Fin nsig) :
    ((k.stop p s).procs p).state = .stopped := by
  simp only [stop]
  rw [wakeWaiters_state]
  all_goals rw [modify_procs_self]
  exact PState.noConfusion

end

/-! ### The signal that is picked -/

def Ready (t : Proc) (s : Fin nsig) : Prop :=
  s ≠ 0 ∧ t.sigPending.getLsbD s.val = true ∧ t.sigMask.getLsbD s.val = false

instance (t : Proc) (s : Fin nsig) : Decidable (Ready t s) := inferInstanceAs (Decidable (_ ∧ _ ∧ _))

variable (t : Proc) (s : Fin nsig)

theorem ready_iff :
    (s != 0 && (t.sigPending &&& ~~~t.sigMask) &&& sigBit s != 0#32) = true ↔ Ready t s := by
  have hs := s.isLt
  simp only [Bool.and_eq_true, bne_iff_ne, ne_eq, and_sigBit_eq_zero, BitVec.getLsbD_and,
    BitVec.getLsbD_not, Ready]
  simp [hs]

theorem deliverable_eq_some : deliverable t = some s ↔ Ready t s ∧ ∀ u < s, ¬ Ready t u := by
  simp only [deliverable, List.find?_eq_some_iff_getElem, ready_iff, Bool.not_eq_true']
  constructor
  · rintro ⟨hs, i, hi, rfl, hbefore⟩
    refine ⟨hs, fun u hu hready => ?_⟩
    have hlt : u.val < i := by simpa [Fin.lt_def] using hu
    have hnot := hbefore u.val hlt
    rw [List.getElem_finRange, (ready_iff t _).mpr] at hnot
    · exact nomatch hnot
    · exact hready
  · rintro ⟨hs, hbefore⟩
    refine ⟨hs, s.val, by simp, by simp, fun j hj => ?_⟩
    rw [← Bool.not_eq_true, ready_iff, List.getElem_finRange]
    exact hbefore _ hj

theorem deliverable_eq_none : deliverable t = none ↔ ∀ s, ¬ Ready t s := by
  simp only [deliverable, List.find?_eq_none, ready_iff, List.mem_finRange, true_implies]

/-! ### A task that is killed -/

section
variable {k : Kernel} {p : Nat}

/-- What `SIGKILL` finds: the record with its bit pending, and awake if it was blocked. -/
theorem signalRaise_sigkill (k : Kernel) (p : Nat) : (k.signalRaise p 9#32).procs p =
      { k.procs p with
        sigPending := (k.procs p).sigPending ||| sigBit sigkill
        waitingFor := if (k.procs p).state = .blocked then 0 else (k.procs p).waitingFor
        state := if (k.procs p).state = .blocked then .run else (k.procs p).state } := by
  have hsigno : signo 9#32 = some sigkill := by decide
  have hcont : ¬ (sigkill = sigcont ∧ (k.procs p).state = .stopped) := fun h => absurd h.1 (by decide)
  simp only [signalRaise, hsigno, if_neg hcont, modify_procs_self]
  split
  · rw [modify_procs_self, modify_procs_self]
  · rw [modify_procs_self]

/-- A signal up to `SIGKILL`, with no other action than to end the task, ends it exactly when
its disposition is the default. -/
theorem deliver_falls_iff {s : Fin nsig} (hs : s ≤ sigkill) (hlive : (k.procs p).state ≠ .zombie)
    (disp : BitVec 64) :
    (∀ writable, ((k.deliver p s disp writable).procs p).state = .zombie) ↔ disp = sigDfl := by
  have hignore : defaultIsIgnore s = false := by
    revert s
    decide
  have hstop : ¬ (s = sigtstp ∨ s = sigstop) := by
    revert s
    decide
  constructor
  · intro h
    by_contra hdfl
    have hstate := h true
    simp only [deliver, if_neg hdfl, if_true] at hstate
    split at hstate
    · rw [modify_procs_self] at hstate
      exact hlive hstate
    split at hstate
    · exact hlive hstate
    simp only [build, modify_procs_self] at hstate
    exact hlive hstate
  · rintro rfl writable
    simp only [deliver, if_neg (show sigDfl ≠ sigIgn by decide), if_true, hignore, if_neg hstop]
    exact exit_state ..

theorem ready_sigkill (hmask : (k.procs p).sigMask &&& sigBit sigkill = 0#32) (s : Fin nsig) :
    Ready ((k.signalRaise p 9#32).procs p) s ↔ Ready (k.procs p) s ∨ s = sigkill := by
  rw [and_sigBit_eq_zero] at hmask
  rw [signalRaise_sigkill]
  simp only [Ready, BitVec.getLsbD_or, getLsbD_sigBit, Bool.or_eq_true, decide_eq_true_eq]
  constructor
  · rintro ⟨h0, hpending | he, hblocked⟩
    · exact .inl ⟨h0, hpending, hblocked⟩
    · exact .inr (Fin.ext he)
  · rintro (⟨h0, hpending, hblocked⟩ | rfl)
    · exact ⟨h0, .inl hpending, hblocked⟩
    · exact ⟨by decide, .inr rfl, hmask⟩

end

/-- A signal below `SIGKILL` that is picked before it and does not end the task. -/
def Shielded (t : Proc) : Prop := ∃ s < sigkill, deliverable t = some s ∧ t.sigHandlers s ≠ sigDfl

/-- Once `SIGKILL` was raised the task is neither stopped nor blocked, and the next
`signal_dispatch` for it, whether or not its stack can be written to, ends it. -/
def SigkillEnds (k : Kernel) (p : Nat) : Prop :=
  ((k.signalRaise p 9#32).procs p).state ≠ .stopped ∧
    ((k.signalRaise p 9#32).procs p).state ≠ .blocked ∧
    ∀ writable, (((k.signalRaise p 9#32).signalDispatch p writable).procs p).state = .zombie

section
variable {k : Kernel} {p : Nat}

theorem signalDispatch_falls_iff {s : Fin nsig} (hring3 : (k.procs p).pageDirectory ≠ 0)
    (hlive : (k.procs p).state ≠ .zombie) (hs : s ≤ sigkill)
    (hpick : deliverable (k.procs p) = some s) :
    (∀ writable, ((k.signalDispatch p writable).procs p).state = .zombie) ↔
      s = sigkill ∨ (k.procs p).sigHandlers s = sigDfl := by
  have hcatch : uncatchable s = true ↔ s = sigkill := by
    clear hpick
    revert s
    decide
  simp only [signalDispatch, if_neg hring3, hpick, deliver_falls_iff hs hlive, hcatch]
  split
  case isTrue he => simp only [he, true_or]
  case isFalse he => simp only [he, false_or]

/-- The signal picked once `SIGKILL` is pending: an earlier one that was picked already, or
`SIGKILL` itself. -/
theorem deliverable_sigkill (hmask : (k.procs p).sigMask &&& sigBit sigkill = 0#32) :
    (∃ s < sigkill, deliverable ((k.signalRaise p 9#32).procs p) = some s ∧
        deliverable (k.procs p) = some s) ∨
      deliverable ((k.signalRaise p 9#32).procs p) = some sigkill ∧
        ∀ s < sigkill, deliverable (k.procs p) ≠ some s := by
  have hready := ready_sigkill hmask
  have hkill (hnone : ∀ u < sigkill, ¬ Ready (k.procs p) u) :
      deliverable ((k.signalRaise p 9#32).procs p) = some sigkill := by
    simp only [deliverable_eq_some, hready, not_or]
    exact ⟨.inr trivial, fun u hu => ⟨hnone u hu, hu.ne⟩⟩
  cases hpick : deliverable (k.procs p) with
  | none =>
    rw [deliverable_eq_none] at hpick
    exact .inr ⟨hkill fun u _ => hpick u, fun _ _ => nofun⟩
  | some s =>
    have hfirst := (deliverable_eq_some _ _).mp hpick
    rcases lt_or_ge s sigkill with hs | hs
    · refine .inl ⟨s, hs, ?_, rfl⟩
      simp only [deliverable_eq_some, hready, not_or]
      exact ⟨.inl hfirst.1, fun u hu => ⟨hfirst.2 u hu, (hu.trans hs).ne⟩⟩
    · refine .inr ⟨hkill fun u hu => hfirst.2 u (hu.trans_le hs), ?_⟩
      rintro u hu he
      exact absurd (Option.some.inj he ▸ hu) (not_lt.mpr hs)

end
end Kernel

/-- `SIGKILL` ends a live ring-3 task exactly when it is not stopped and no signal below 9
that is picked first is caught or ignored. -/
theorem sigkill_ends_iff (init : Nat) (ops : List Op) (p : Nat)
    (hring3 : ((after init ops).procs p).pageDirectory ≠ 0)
    (hlive : ((after init ops).procs p).state ≠ .zombie) :
    (after init ops).SigkillEnds p ↔ ((after init ops).procs p).state ≠ .stopped ∧
        ¬ Kernel.Shielded ((after init ops).procs p) := by
  have hmask := (sane_after init ops p).unblocked Kernel.sigkill rfl
  generalize after init ops = k at *
  have hraised := k.signalRaise_sigkill p
  have hstate : ((k.signalRaise p 9#32).procs p).state ≠ .stopped ∧
      ((k.signalRaise p 9#32).procs p).state ≠ .blocked ↔ (k.procs p).state ≠ .stopped := by
    rw [hraised]
    dsimp only
    split
    case isTrue hb => simp [hb]
    case isFalse hb => simp [hb]
  have hring3' : ((k.signalRaise p 9#32).procs p).pageDirectory ≠ 0 := by rwa [hraised]
  have hlive' : ((k.signalRaise p 9#32).procs p).state ≠ .zombie := by
    rw [hraised]
    dsimp only
    split
    · exact nofun
    · exact hlive
  have hhandlers : ((k.signalRaise p 9#32).procs p).sigHandlers = (k.procs p).sigHandlers := by
    rw [hraised]
  rw [Kernel.SigkillEnds, ← and_assoc, hstate]
  refine and_congr_right fun _ => ?_
  rcases Kernel.deliverable_sigkill hmask with ⟨s, hs, hpick, hbefore⟩ | ⟨hpick, hnone⟩
  · rw [Kernel.signalDispatch_falls_iff hring3' hlive' hs.le hpick, or_iff_right hs.ne, hhandlers]
    constructor
    · rintro hdfl ⟨u, _, hu, hcaught⟩
      rw [hbefore, Option.some.injEq] at hu
      exact hcaught (hu ▸ hdfl)
    · intro h
      by_contra hcaught
      exact h ⟨s, hs, hbefore, hcaught⟩
  · rw [Kernel.signalDispatch_falls_iff hring3' hlive' le_rfl hpick]
    exact iff_of_true (.inl rfl) fun ⟨u, hu, hpicked, _⟩ => hnone u hu hpicked

/-- A task is loaded and told to ignore `SIGINT`. -/
def ignoring : List Op :=
  [.load (.loaded 1 0x400000#64 0x500000#64) 0x7FFFFFFFEFE0#64 2 3, .signal 2 2#32 1#64 0]

theorem sigkill_ends_iff_ignoring :
    ((after 1 ignoring).procs 2).pageDirectory ≠ 0 ∧ ((after 1 ignoring).procs 2).state ≠ .zombie ∧
      ((after 1 ignoring).SigkillEnds 2 ↔ ((after 1 ignoring).procs 2).state ≠ .stopped ∧
        ¬ Kernel.Shielded ((after 1 ignoring).procs 2)) :=
  ⟨by decide, by decide, sigkill_ends_iff 1 ignoring 2 (by decide) (by decide)⟩

/-- `SIGINT` is sent to the task that ignores it, or `SIGSTOP`, which it is stopped by: the
first dispatch after `SIGKILL` only drops the `SIGINT`, and the stopped task stays stopped. -/
theorem sigkill_held_off : ¬ (after 1 (ignoring ++ [.kill 2#32 2#32])).SigkillEnds 2 ∧
      ¬ (after 1 (ignoring ++ [.kill 2#32 19#32, .dispatch 2 true])).SigkillEnds 2 := by
  constructor
  · rintro ⟨_, _, hends⟩
    exact absurd (hends true) (by decide)
  · rintro ⟨hstop, _⟩
    exact absurd hstop (by decide)

end Nyx.Process
