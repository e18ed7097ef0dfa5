import Nyx.Process.SignalActs

/-! Signal states over whole runs. -/
namespace Nyx.Process
open Nyx.Lib Function BitVec SigAct

namespace Kernel

/-! ### Sets of signals in a word -/

theorem getLsbD_sigBit (s : Fin nsig) (i : Nat) : (sigBit s).getLsbD i = decide (i = s.val) := by
  have hs := s.isLt
  simp only [sigBit, getLsbD_shiftLeft, getLsbD_one]
  grind

section
variable (s : Fin nsig) (w : BitVec 32)

theorem and_sigBit_eq_zero : w &&& sigBit s = 0#32 ↔ w.getLsbD s.val = false := by
  rw [BitVec.zero_iff_eq_false]
  simp only [getLsbD_and, getLsbD_sigBit]
  grind

theorem sigBit_ne_zero : sigBit s ≠ 0#32 := by
  intro h
  have hbit : (sigBit s).getLsbD s.val = false := by rw [h, getLsbD_zero]
  simp only [getLsbD_sigBit, decide_true, Bool.true_eq_false] at hbit

theorem sigBit_and_cases : sigBit s &&& w = 0#32 ∨ sigBit s &&& w = sigBit s := by
  rw [BitVec.and_comm, and_sigBit_eq_zero]
  cases hw : w.getLsbD s.val with
  | false => exact .inl rfl
  | true =>
    right
    apply eq_of_getLsbD_eq
    intro i hi
    simp only [getLsbD_and, getLsbD_sigBit]
    grind

end

/-- A word that is contained in another, as `bits & ~set == 0`. -/
theorem and_not_eq_zero (a b : BitVec 32) :
    a &&& ~~~b = 0#32 ↔ ∀ i < 32, a.getLsbD i = true → b.getLsbD i = true := by
  rw [BitVec.zero_iff_eq_false]
  simp only [getLsbD_and, getLsbD_not]
  grind

theorem maskAfter_uncatchable (how old set : BitVec 32) {s : Fin nsig} (hs : uncatchable s = true) :
    maskAfter how old set &&& sigBit s = 0#32 := by
  have hs : s = sigkill ∨ s = sigstop := by simpa [uncatchable] using hs
  rw [and_sigBit_eq_zero]
  simp only [maskAfter, getLsbD_and, getLsbD_not, getLsbD_or, getLsbD_sigBit]
  rcases hs with rfl | rfl <;> simp

end Kernel

open Kernel

/-! ### The invariant -/

/-- `SIGKILL` and `SIGSTOP` are neither blocked nor caught, and the one signal whose handler
runs, if any, is blocked. -/
structure SigState.Sane (g : SigState) : Prop where
  unblocked : ∀ s, uncatchable s = true → g.mask &&& sigBit s = 0#32
  uncaught : ∀ s, uncatchable s = true → g.handlers s = sigDfl
  blocked : g.active &&& ~~~g.mask = 0#32
  single : g.active = 0#32 ∨ ∃ s, g.active = sigBit s

namespace SigState.Sane
variable {g : SigState}

theorem zero : SigState.zero.Sane :=
  ⟨fun _ _ => BitVec.zero_and, fun _ _ => rfl, BitVec.zero_and, .inl rfl⟩

theorem handed (h : g.Sane) : g.handed.Sane := ⟨h.unblocked, h.uncaught, BitVec.zero_and, .inl rfl⟩

theorem enter (h : g.Sane) {s : Fin nsig} (hs : uncatchable s = false) (hidle : g.active = 0#32)
    (context : Frame) : (apply g (.enter s context)).Sane := by
  refine ⟨?_, h.uncaught, ?_, .inr ⟨s, ?_⟩⟩
  · intro u hu
    have hne : u ≠ s := by
      rintro rfl
      rw [hs] at hu
      exact nomatch hu
    have hmask := h.unblocked u hu
    rw [and_sigBit_eq_zero] at hmask ⊢
    simp only [apply, getLsbD_or, hmask, getLsbD_sigBit, Bool.false_or, decide_eq_false_iff_not]
    exact fun he => hne (Fin.ext he)
  · rw [and_not_eq_zero]
    intro i _ hi
    simp only [apply, hidle, BitVec.zero_or] at hi
    simp only [apply, getLsbD_or, hi, Bool.or_true]
  · simp only [apply, hidle, BitVec.zero_or]

theorem sigreturn (h : g.Sane) : (apply g .sigreturn).Sane := by
  refine ⟨?_, h.uncaught, BitVec.zero_and, .inl rfl⟩
  intro u hu
  have hmask := h.unblocked u hu
  rw [and_sigBit_eq_zero] at hmask ⊢
  simp only [apply, getLsbD_and, hmask, Bool.false_and]

theorem remask (h : g.Sane) (how set : BitVec 32) : (apply g (.remask how set)).Sane := by
  refine ⟨fun u hu => maskAfter_uncatchable how g.mask set hu, h.uncaught, ?_, ?_⟩
  · rw [and_not_eq_zero]
    intro i _ hi
    simp only [apply, getLsbD_and, Bool.and_eq_true] at hi
    exact hi.2
  · rcases h.single with hidle | ⟨s, hs⟩
    · exact .inl (by simp only [apply, hidle, BitVec.zero_and])
    · simp only [apply, hs]
      exact (sigBit_and_cases s _).imp id fun he => ⟨s, he⟩

theorem act (h : g.Sane) (a : SigAct) (ha : a.Allowed g) : (a.apply g).Sane := by
  cases a with
  | raise s => exact ⟨h.unblocked, h.uncaught, h.blocked, h.single⟩
  | consume s => exact ⟨h.unblocked, h.uncaught, h.blocked, h.single⟩
  | save => exact ⟨h.unblocked, h.uncaught, h.blocked, h.single⟩
  | reimage => exact ⟨zero.unblocked, zero.uncaught, zero.blocked, zero.single⟩
  | enter => exact h.enter ha.1 ha.2 ..
  | sigreturn => exact h.sigreturn
  | remask => exact h.remask ..
  | install s handler trampoline =>
    refine ⟨h.unblocked, ?_, h.blocked, h.single⟩
    intro u hu
    have hne : u ≠ s := by
      rintro rfl
      rw [show uncatchable u = false from ha] at hu
      exact nomatch hu
    exact (update_of_ne hne ..).trans (h.uncaught u hu)

end SigState.Sane

theorem sane_hands {k : Kernel} {op : Op} {new : SigState} (h : ∀ p, (k.sigs p).Sane)
    (hnew : k.Hands op new) : new.Sane := by
  cases op with
  | createProcess | load | spawn => exact hnew ▸ .zero
  | fork self | clone self => exact hnew ▸ (h self).handed
  | _ => exact hnew.elim

variable (k : Kernel)

theorem sane_perform (op : Op) (h : ∀ p, (k.sigs p).Sane) (p : Nat) :
    ((perform k op).sigs p).Sane := by
  rcases moves_perform k op with ⟨q, acts, _, hok, hacted⟩ | ⟨new, hnew, ⟨hs, _⟩ | ⟨q, hbegun⟩⟩
  · rw [hacted, update_apply]
    split
    · exact run_invariant (fun g a hg ha => hg.act a ha) _ acts (h q) hok
    · exact h p
  · exact hs ▸ h p
  · rw [hbegun.sigs, update_apply]
    split
    · exact sane_hands h hnew
    · exact h p

theorem sane_step (op : Op) (h : ∀ p, (k.sigs p).Sane) (p : Nat) : ((step k op).sigs p).Sane := by
  rw [step]
  split
  · exact sane_perform k op h p
  · exact h p

theorem sane_boot (init p : Nat) : ((boot init).sigs p).Sane := by
  have hempty (q : Nat) : (Kernel.empty.sigs q).Sane := .zero
  rcases fills_initProcess Kernel.empty init with ⟨hs, _⟩ | ⟨q, hbegun⟩
  · rw [boot, hs]
    exact hempty p
  rw [boot, hbegun.sigs, update_apply]
  split
  · exact .zero
  · exact hempty p

theorem sane_after (init : Nat) (ops : List Op) (p : Nat) : ((after init ops).sigs p).Sane :=
  run_keeps (P := fun k : Kernel => ∀ p, (k.sigs p).Sane) sane_step _ ops (sane_boot init) p

/-! ### Children -/

/-- The calls that copy a task. -/
def Op.Copies : Op → Prop
  | .fork .. | .clone .. => True
  | _ => False

theorem copied_step {op : Op} (hop : op.Copies) {child : Nat} (hin : child ∈ (step k op).table)
    (hout : child ∉ k.table) : ∃ g : SigState, (step k op).sigs child = g.handed := by
  rw [step] at hin ⊢
  split at hin
  case isFalse => exact absurd hin hout
  case isTrue hcaller =>
    have hborn {new : SigState} (hfills : Fills k (perform k op) new) :
        (perform k op).sigs child = new := by
      rcases hfills with ⟨_, ht⟩ | ⟨q, hbegun⟩
      · exact absurd (ht ▸ hin) hout
      rcases hbegun.table with ht | ht
      · exact absurd (ht ▸ hin) hout
      rw [ht, List.mem_append, List.mem_singleton] at hin
      rw [hbegun.sigs, hin.resolve_left hout, update_self]
    rw [if_pos hcaller]
    cases op with
    | fork => exact ⟨_, hborn (k.fills_doFork ..)⟩
    | clone => exact ⟨_, hborn (k.fills_doClone ..)⟩
    | _ => exact hop.elim

/-- Whatever is called, and whatever signals arrive, in every state the kernel reaches the
signal state of every task is sane, and a task that was just forked or cloned has nothing
pending and runs no handler. -/
theorem signal_state_invariant (init : Nat) (ops : List Op) :
    (∀ p ∈ (after init ops).table, ((after init ops).sigs p).Sane) ∧
      ∀ op : Op, op.Copies → ∀ child ∈ (step (after init ops) op).table,
        child ∉ (after init ops).table → ((step (after init ops) op).sigs child).pending = 0#32 ∧
            ((step (after init ops) op).sigs child).active = 0#32 := by
  refine ⟨fun p _ => sane_after init ops p, ?_⟩
  intro op hop child hin hout
  obtain ⟨g, hg⟩ := copied_step _ hop hin hout
  rw [hg]
  exact ⟨rfl, rfl⟩

/-- A task with a handler for `SIGUSR1` is inside it, with `SIGTERM` pending, and forks. -/
def interrupted : List Op :=
  [.load (.loaded 1 0x400000#64 0x500000#64) 0x7FFFFFFFEFE0#64 2 3,
    .signal 2 10#32 0x401000#64 0x400100#64, .kill 2#32 10#32, .dispatch 2 true, .kill 2#32 15#32]

theorem signal_state_invariant_interrupted : ((after 1 interrupted).sigs 2).active = sigBit 10 ∧
      ((after 1 interrupted).sigs 2).pending = sigBit 15 ∧
      ((step (after 1 interrupted) (.fork 2 2 4 5 fun _ => 0)).sigs 4).pending = 0#32 ∧
      ((step (after 1 interrupted) (.fork 2 2 4 5 fun _ => 0)).sigs 4).active = 0#32 := by
  refine ⟨by decide, by decide, ?_⟩
  exact (signal_state_invariant 1 interrupted).2 (.fork 2 2 4 5 fun _ => 0) trivial 4 (by decide)
    (by decide)

/-- While a task is in the table, its signal state goes through acts and nothing else, each under
its guard and asked for by an operation of the run. -/
theorem acts_run {k : Kernel} (hk : k.blocks.Owned) {p : Nat} {ops : List Op}
    (hp : Admissible step (fun k _ => p ∈ k.table) k ops) :
    ∃ acts, (∀ a ∈ acts, ∃ before op rest, ops = before ++ op :: rest ∧
        (run step k before).Asks p op a) ∧
      Admissible SigAct.apply SigAct.Allowed (k.sigs p) acts ∧
      (run step k ops).sigs p = run SigAct.apply (k.sigs p) acts := by
  induction ops generalizing k with
  | nil => exact ⟨[], (fun _ ha => nomatch ha), trivial, rfl⟩
  | cons op ops ih =>
    obtain ⟨acts, hasked, hok, hstep⟩ := acts_step hk hp.1 op
    obtain ⟨later, hlaterAsked, hlater, hrun⟩ := ih (owned_step k op hk) hp.2
    rw [hstep] at hlater hrun
    refine ⟨acts ++ later, fun a ha => ?_, (admissible_append ..).mpr ⟨hok, hlater⟩, ?_⟩
    · rcases List.mem_append.mp ha with ha | ha
      · exact ⟨[], op, ops, rfl, hasked a ha⟩
      · obtain ⟨before, op', rest, rfl, hask⟩ := hlaterAsked a ha
        exact ⟨op :: before, op', rest, rfl, hask⟩
    · rw [run_append]
      exact hrun

theorem acts_run_handled : ∃ acts, Admissible SigAct.apply SigAct.Allowed
      ((after 1 interrupted).sigs 2) acts ∧
    (run step (after 1 interrupted) [.sigreturn 2, .dispatch 2 true]).sigs 2 =
      run SigAct.apply ((after 1 interrupted).sigs 2) acts := by
  obtain ⟨acts, -, hrun⟩ := acts_run (owned_after 1 interrupted)
    (by decide : Admissible step (fun k _ => 2 ∈ k.table) _ [.sigreturn 2, .dispatch 2 true])
  exact ⟨acts, hrun⟩

end Nyx.Process
