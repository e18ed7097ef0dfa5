import Nyx.Descriptors.Readers
import Nyx.Futex.Waking
import Nyx.Process.WaitRuns

/-! Signals for tasks asleep in the kernel.

`signal_raise` makes a sleeping task run, so that its call returns and the signal is delivered
on the way out. The loops of `pipe_read`, `do_waitpid` and `do_futex` look only at what they
wait for: whoever was woken by a signal alone goes back to sleep (`interrupted_leaves_iff`). -/
namespace Nyx.Interrupts
open Nyx.Process Nyx.Process.Kernel Nyx.Descriptors Nyx.Futex Nyx.Lib Function

/-- A call that sleeps in a loop, in the machine it is part of. -/
structure Loop (σ ε : Type) where
  step : σ → ε → σ
  /-- The task is `PROC_BLOCKED` inside the call. -/
  asleep : σ → Nat → Prop
  /-- The event posts to the task a signal that it does not mask. -/
  posts : σ → Nat → ε → Prop
  /-- The event is the next pass of the loop by the task, which runs again. -/
  passes : σ → Nat → ε → Prop
  /-- What the task waits for is there. -/
  ready : σ → Nat → Prop

/-- A task that sleeps in the call is sent a signal, and runs again after other things have
happened. -/
structure Loop.Interrupted {σ ε : Type} (l : Loop σ ε) (s : σ) (p : Nat) (post : ε)
    (others : List ε) (pass : ε) : Prop where
  asleep : l.asleep s p
  posts : l.posts s p post
  waits : Admissible l.step (fun s e => ¬ l.passes s p e) (l.step s post) others
  passes : l.passes (run l.step s (post :: others)) p pass

/-! ### The three loops -/

variable (k : Kernel) {p : Nat}

/-- `do_kill` finds the task and raises a signal that the task does not mask. -/
def Sends (p : Nat) : Op → Prop
  | .kill pid sig => k.findProcess pid = some p ∧
    ∃ s ∈ signo sig, (k.procs p).sigMask &&& sigBit s = 0#32
  | _ => False

def pipeReads : Loop Readers ReadEvent where
  step := Readers.step
  asleep r p := p ≠ 0 ∧ (r.inside p).isSome = true ∧ (r.io.kernel.procs p).state = .blocked
  posts r p e := ∃ op, e = .call (.process op) ∧ Sends r.io.kernel p op
  passes r p e := e = .resume p ∧ (r.inside p).isSome = true ∧ (r.io.kernel.procs p).state = .run
  ready r p := ∃ i n, r.inside p = some (i, n) ∧
    (0 < (r.io.pipes i).count ∨ (r.io.pipes i).writeRefs = 0)

/-- There is no child to wait for, one has exited or stopped, or the call is not to wait. -/
def Settles (self : Nat) (r : Request) : Prop :=
  (∀ c ∈ k.table, k.awaited self r.wpid c = false) ∨
    (∃ c ∈ k.table, k.awaited self r.wpid c = true ∧ (k.procs c).state = .zombie) ∨
    (∃ c ∈ k.table, k.awaited self r.wpid c = true ∧ r.options &&& wuntraced ≠ 0#32 ∧
      (k.procs c).state = .stopped ∧ (k.procs c).stoppedReported = false) ∨
    r.options &&& wnohang ≠ 0#32

def waitpids : Loop Waits Op where
  step := Waits.step
  asleep s p := (s.inside p).isSome = true ∧ (s.kernel.procs p).state = .blocked
  posts s p op := Sends s.kernel p op
  passes s p op := p ∈ s.kernel.table ∧ (s.kernel.procs p).state = .run ∧
    ∃ r, s.inside p = some r ∧ op = .waitpid p r.wpid r.options
  ready s p := ∃ r, s.inside p = some r ∧ Settles s.kernel p r

def futexWaits : Loop Futexes Futex.Event where
  step := Futexes.step
  asleep s p := (s.tasks p).wait.isSome = true ∧ (s.tasks p).state = .blocked
  posts s p e := e = .raise p ∧ p ∈ s.table
  passes s p e := e = .resume p ∧ p ∈ s.table ∧ (s.tasks p).state = .run ∧
    (s.tasks p).wait.isSome = true
  ready s p := ∃ w, (s.tasks p).wait = some w ∧
    ((s.tasks p).futexKey = 0#64 ∨ load32 s.system.machine w.key ≠ w.val)

/-! ### One pass -/

theorem pipeReads_pass {r : Readers} {e : ReadEvent} (h0 : p ≠ 0) (h : pipeReads.passes r p e) :
    ¬ pipeReads.asleep (r.step e) p ↔ pipeReads.ready r p := by
  obtain ⟨rfl, hin, hrun⟩ := h
  obtain ⟨⟨i, n⟩, hin⟩ := Option.isSome_iff_exists.mp hin
  have hready : pipeReads.ready r p ↔ 0 < (r.io.pipes i).count ∨ (r.io.pipes i).writeRefs = 0 := by
    constructor
    · rintro ⟨j, m, hj, hr⟩
      have hji : j = i := congrArg Prod.fst (Option.some.inj (hj.symm.trans hin))
      exact hji ▸ hr
    · exact fun hr => ⟨i, n, hin, hr⟩
  rw [hready]
  have hparked : ((r.io.pipes i).pass n p).2 = .parked ↔
      ¬ (0 < (r.io.pipes i).count ∨ (r.io.pipes i).writeRefs = 0) := by
    constructor
    · intro hpark
      obtain ⟨hcount, hwrite, _⟩ := Pipe.pass_parked hpark
      omega
    · intro hnot
      rw [not_or] at hnot
      simp only [Pipe.pass, if_neg hnot.1, hnot.2, h0, or_self, if_false]
  simp only [Readers.step, if_pos hrun, Readers.resume, hin]
  by_cases hpark : ((r.io.pipes i).pass n p).2 = .parked
  · rw [if_pos hpark]
    refine iff_of_false (fun hawake => hawake ⟨h0, ?_, ?_⟩) (hparked.mp hpark)
    · exact Option.isSome_iff_exists.mpr ⟨_, hin⟩
    · dsimp only
      rw [modify_procs_self]
  · rw [if_neg hpark]
    refine iff_of_true (fun hasleep => ?_) (not_not.mp fun hnot => hpark (hparked.mpr hnot))
    have hsome : (update r.inside p none p).isSome = true := hasleep.2.1
    rw [update_self] at hsome
    cases hsome

theorem stoppedChild_none_iff {k : Kernel} {self : Nat} {r : Request} :
    k.stoppedChild self r.wpid r.options = none ↔
      ¬ ∃ c ∈ k.table, k.awaited self r.wpid c = true ∧ r.options &&& wuntraced ≠ 0#32 ∧
        (k.procs c).state = .stopped ∧ (k.procs c).stoppedReported = false := by
  simp only [stoppedChild, List.find?_eq_none, List.mem_reverse, Bool.and_eq_true, bne_iff_ne,
    beq_iff_eq, Bool.not_eq_true', and_assoc, not_exists, not_and]

/-- A pass of `do_waitpid` goes to sleep exactly when there is nothing to return. -/
theorem doWaitpid_parked_iff (self : Nat) (r : Request) :
    (k.doWaitpid self r.wpid r.options).2 = .parked ↔ ¬ Settles k self r := by
  have hany : k.table.any (k.awaited self r.wpid) = false ↔
      ∀ c ∈ k.table, k.awaited self r.wpid c = false := by
    simp only [List.any_eq_false, Bool.not_eq_true]
  have hzombie : k.table.findIdx? (fun p => k.awaited self r.wpid p && (k.procs p).state == .zombie)
      = none ↔ ¬ ∃ c ∈ k.table, k.awaited self r.wpid c = true ∧ (k.procs c).state = .zombie := by
    simp only [List.findIdx?_eq_none_iff, Bool.eq_false_iff, ne_eq, Bool.and_eq_true, beq_iff_eq,
      not_exists, not_and]
  simp only [doWaitpid, Settles, not_or]
  split
  case isTrue hnone => exact iff_of_false (fun h => by cases h) fun h => h.1 (hany.mp hnone)
  case isFalse hsome =>
    rw [hany] at hsome
    split
    case h_1 zi hzi =>
      refine iff_of_false (fun h => by cases h) fun h => ?_
      rw [hzombie.mpr h.2.1] at hzi
      cases hzi
    case h_2 hnone =>
      split
      case h_1 c hc =>
        refine iff_of_false (fun h => by cases h) fun h => ?_
        rw [stoppedChild_none_iff.mpr h.2.2.1] at hc
        cases hc
      case h_2 hstop =>
        split
        case isTrue hnohang => exact iff_of_false (fun h => by cases h) fun h => h.2.2.2 hnohang
        case isFalse hwait =>
          exact iff_of_true rfl ⟨hsome, hzombie.mp hnone, stoppedChild_none_iff.mp hstop, hwait⟩

theorem doWaitpid_parks_self {k : Kernel} {self : Nat} {wpid options : BitVec 32}
    (hpark : (k.doWaitpid self wpid options).2 = .parked) :
    ((k.doWaitpid self wpid options).1.procs self).state = .blocked := by
  simp only [doWaitpid] at hpark ⊢
  split at hpark
  · cases hpark
  case isFalse hsome =>
    rw [if_neg hsome]
    split at hpark
    · cases hpark
    split at hpark
    · cases hpark
    split at hpark
    · cases hpark
    case isFalse hwait =>
      rw [if_neg hwait, modify_procs_self]

theorem waitpids_pass {s : Waits} {op : Op} (h : waitpids.passes s p op) :
    ¬ waitpids.asleep (s.step op) p ↔ waitpids.ready s p := by
  obtain ⟨hmem, _, r, hin, rfl⟩ := h
  have hready : waitpids.ready s p ↔ Settles s.kernel p r := by
    constructor
    · rintro ⟨r', hr', hs⟩
      exact Option.some.inj (hr'.symm.trans hin) ▸ hs
    · exact fun hs => ⟨r, hin, hs⟩
  have hcaller : ∀ q ∈ (Op.waitpid p r.wpid r.options).caller, q ∈ s.kernel.table :=
    fun q hq => Option.mem_some.mp hq ▸ hmem
  rw [hready, Waits.step, if_pos hcaller]
  by_cases hpark : (s.kernel.doWaitpid p r.wpid r.options).2 = .parked
  · refine iff_of_false (fun hawake => hawake ⟨?_, ?_⟩)
      ((doWaitpid_parked_iff s.kernel p r).mp hpark)
    · show (update s.inside p _ p).isSome = true
      rw [update_self, if_pos hpark]
      rfl
    · exact doWaitpid_parks_self hpark
  · refine iff_of_true (fun hasleep => ?_)
      (not_not.mp fun hs => hpark ((doWaitpid_parked_iff s.kernel p r).mpr hs))
    have hsome : (update s.inside p _ p).isSome = true := hasleep.1
    rw [update_self, if_neg hpark] at hsome
    cases hsome

theorem futexWaits_pass {s : Futexes} {e : Futex.Event} (h : futexWaits.passes s p e) :
    ¬ futexWaits.asleep (s.step e) p ↔ futexWaits.ready s p := by
  obtain ⟨rfl, hmem, hrun, hwait⟩ := h
  obtain ⟨w, hw⟩ := Option.isSome_iff_exists.mp hwait
  have hready : futexWaits.ready s p ↔
      (s.tasks p).futexKey = 0#64 ∨ load32 s.system.machine w.key ≠ w.val := by
    constructor
    · rintro ⟨w', hw', hr⟩
      exact Option.some.inj (hw'.symm.trans hw) ▸ hr
    · exact fun hr => ⟨w, hw, hr⟩
  have hleft : ¬ futexWaits.asleep (s.leave p) p := by
    rintro ⟨hsome, _⟩
    simp only [Futexes.leave, Futexes.setTask, update_self] at hsome
    cases hsome
  rw [hready]
  simp only [Futexes.step, hw, if_pos (And.intro hmem hrun), Futexes.resume, Futexes.pass]
  split
  case isTrue hkey => exact iff_of_true hleft (.inl hkey)
  case isFalse hkey =>
    split
    case isTrue hval => exact iff_of_true hleft (.inr hval)
    case isFalse hval =>
      refine iff_of_false (fun hawake => hawake ?_) (not_or.mpr ⟨hkey, hval⟩)
      simp only [futexWaits, Futexes.setTask, update_self]
      exact ⟨rfl, trivial⟩

/-! ### Every blocking call -/

inductive Blocking where
  | pipeRead
  | waitpid
  | futex

namespace Blocking

def State : Blocking → Type
  | pipeRead => Readers
  | waitpid => Waits
  | futex => Futexes

def Event : Blocking → Type
  | pipeRead => ReadEvent
  | waitpid => Op
  | futex => Futex.Event

def loop : (c : Blocking) → Loop c.State c.Event
  | pipeRead => pipeReads
  | waitpid => waitpids
  | futex => futexWaits

end Blocking

/-- A task asleep in a blocking call that is sent a signal it does not mask leaves the call
when it runs again exactly when what it waits for is there. -/
theorem interrupted_leaves_iff (c : Blocking) (s : c.State) (p : Nat) (post : c.Event)
    (others : List c.Event) (pass : c.Event)
    (h : c.loop.Interrupted s p post others pass) :
    ¬ c.loop.asleep (c.loop.step (run c.loop.step s (post :: others)) pass) p ↔
      c.loop.ready (run c.loop.step s (post :: others)) p := by
  cases c with
  | pipeRead => exact pipeReads_pass h.asleep.1 h.passes
  | waitpid => exact waitpids_pass h.passes
  | futex => exact futexWaits_pass h.passes

/-- `SIGUSR1` for the process 3. -/
def usr1 : Op := .kill 3#32 10#32

/-- A child (at 144) asleep in an empty pipe. -/
def sleeper : Readers := .after 16 (piped ++ [.call (.read 144 3#32 8 .good)])

/-- A signal and a byte: the child leaves `pipe_read`. -/
theorem interrupted_leaves_written : pipeReads.Interrupted sleeper 144 (.call (.process usr1))
        [.call (.write 48 4#32 [7#8] .good)] (.resume 144) ∧
      ¬ pipeReads.asleep (pipeReads.step (run pipeReads.step sleeper
        [.call (.process usr1), .call (.write 48 4#32 [7#8] .good)]) (.resume 144)) 144 := by
  have hsent : pipeReads.Interrupted sleeper 144 (.call (.process usr1))
      [.call (.write 48 4#32 [7#8] .good)] (.resume 144) := by
    refine ⟨⟨by decide, by decide +kernel, by decide +kernel⟩, ⟨usr1, rfl, ?_⟩,
      ⟨fun h => (nomatch h.1), trivial⟩, rfl, by decide +kernel, by decide +kernel⟩
    exact ⟨by decide +kernel, 10, by decide, by decide +kernel⟩
  refine ⟨hsent, (interrupted_leaves_iff .pipeRead sleeper 144 _ _ _ hsent).mpr ?_⟩
  exact ⟨0, 8, by decide +kernel, .inl (by decide +kernel)⟩

/-- A process (at 48) is asleep in `do_waitpid` for its child (at 144). -/
def awaiting : Waits :=
  .after 16 [.load (.loaded 32 0x400000#64 0x500000#64) 0x7FF000#64 48 64,
    .fork 48 128 144 160 fun _ => 0, .waitpid 48 0#32 0#32]

/-- Woken by a signal alone, the child goes back to sleep in the pipe, the process in
`do_waitpid` and a thread in its futex. -/
theorem signalled_sleeps_again :
    (pipeReads.Interrupted sleeper 144 (.call (.process usr1)) [] (.resume 144) ∧
      pipeReads.asleep (run pipeReads.step sleeper [.call (.process usr1), .resume 144]) 144) ∧
    (waitpids.Interrupted awaiting 48 (.kill 2#32 10#32) [] (.waitpid 48 0#32 0#32) ∧
      waitpids.asleep (run waitpids.step awaiting [.kill 2#32 10#32, .waitpid 48 0#32 0#32]) 48) ∧
    futexWaits.Interrupted (Futexes.parked []) 32 (.raise 32) [] (.resume 32) ∧
      futexWaits.asleep (run futexWaits.step (Futexes.parked []) [.raise 32, .resume 32]) 32 := by
  refine ⟨⟨?_, ?_⟩, ⟨?_, ?_⟩, ?_, ?_⟩
  · refine ⟨⟨by decide, by decide +kernel, by decide +kernel⟩, ⟨usr1, rfl, ?_⟩, trivial,
      rfl, by decide +kernel, by decide +kernel⟩
    exact ⟨by decide +kernel, 10, by decide, by decide +kernel⟩
  · exact ⟨by decide, by decide +kernel, by decide +kernel⟩
  · refine ⟨⟨by decide +kernel, by decide +kernel⟩, ?_, trivial, by decide +kernel,
      by decide +kernel, ⟨0#32, 0#32⟩, by decide +kernel, rfl⟩
    exact ⟨by decide +kernel, 10, by decide, by decide +kernel⟩
  · exact ⟨by decide +kernel, by decide +kernel⟩
  · exact ⟨⟨by decide +kernel, by decide +kernel⟩, ⟨rfl, by decide +kernel⟩, trivial, rfl,
      by decide +kernel, by decide +kernel, by decide +kernel⟩
  · exact ⟨by decide +kernel, by decide +kernel⟩

end Nyx.Interrupts
