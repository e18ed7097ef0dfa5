import Nyx.Process.Console
import Nyx.Process.Kills
import Nyx.Process.States
import Nyx.Process.WaitProtocol

/-! What stops a task.

`signal_dispatch` stops a task for a `SIGSTOP`, or for a `SIGTSTP` that is not blocked and
has its default disposition. `signal_check_stop`, which the loops of `Console` call, looks at
the pending signals only: a task that blocks, ignores or handles `SIGTSTP` is stopped all the
same (`ignored_tstp_stops`). No other stop disregards the task's settings
(`stop_respects_disposition_iff`). -/
namespace Nyx.Process
open Nyx.Lib Kernel

/-- What tasks can do to be stopped: any entry into the kernel, or a pass of a loop that waits
for a key or for a tick. -/
inductive StopEvent where
  | call (op : Op)
  | readLine (self : Nat) (max : Int) (line : Line) (c : BitVec 8)
  | readRaw (self : Nat) (max : Int) (line : Line) (key : BitVec 32)
  | readkey (self : Nat) (timeout deadline tick key : BitVec 32)
  | sleep (self : Nat) (deadline tick : BitVec 32)
  | slept (self : Nat)

namespace StopEvent

/-- The task whose loop makes a pass. -/
def waiter : StopEvent → Option Nat
  | .readLine self .. | .readRaw self .. | .readkey self .. | .sleep self .. => some self
  | .call _ | .slept _ => none

def perform (k : Kernel) : StopEvent → Kernel
  | .call op => Nyx.Process.step k op
  | .readLine self max line c => (k.stdinReadLine self max line c).1
  | .readRaw self max line key => (k.stdinReadRaw self max line key).1
  | .readkey self timeout deadline tick key => (k.stdinReadkey self timeout deadline tick key).1
  | .sleep self deadline tick => (k.doSleepMs self deadline tick).1
  | .slept self => k.slept self

def step (k : Kernel) (e : StopEvent) : Kernel :=
  if ∀ p ∈ e.waiter, p ∈ k.table then e.perform k else k

def after (init : Nat) (events : List StopEvent) : Kernel := run step (boot init) events

end StopEvent

/-! ### Who else is never stopped -/

namespace Kernel

/-- No entry into the kernel stops a task, other than a dispatch by the task. -/
theorem unstopped_step {k : Kernel} {op : Op} {q : Nat}
    (hop : ∀ writable, op ≠ .dispatch q writable)
    (hs : ((step k op).procs q).state = .stopped) : (k.procs q).state = .stopped := by
  rw [step] at hs
  split at hs
  case isFalse => exact hs
  case isTrue =>
    have hmay : ¬ k.may q .stopped op := by
      cases op with
      | dispatch self writable =>
        rintro ⟨he, _⟩
        exact hop writable (he ▸ rfl)
      | _ => simp [may]
    exact (k.lets_perform op).kept hs (by decide) hmay

/-! ### Why a task is stopped -/

/-- A stop for `s` that respects what the task asked for. -/
def Respects (t : Proc) (s : Fin nsig) : Prop :=
  s = sigstop ∧ t.sigPending &&& sigBit sigstop ≠ 0#32 ∨
    s = sigtstp ∧ t.sigPending &&& sigBit sigtstp ≠ 0#32 ∧
      t.sigMask &&& sigBit sigtstp = 0#32 ∧ t.sigHandlers sigtstp = sigDfl

/-- A `SIGTSTP` is pending that the task blocks, ignores or handles. -/
def Overridden (t : Proc) : Prop :=
  t.sigPending &&& sigBit sigtstp ≠ 0#32 ∧
    ¬ (t.sigMask &&& sigBit sigtstp = 0#32 ∧ t.sigHandlers sigtstp = sigDfl)

section
variable {k : Kernel} {p : Nat}

theorem stop_stopSig (k : Kernel) (p : Nat) (s : Fin nsig) :
    ((k.stop p s).procs p).stopSig = BitVec.ofNat 32 s.val := by
  have hwake (k : Kernel) : ((k.wakeWaiters p).procs p).stopSig = (k.procs p).stopSig := by
    simp only [wakeWaiters]
    split
    · rfl
    split
    · rfl
    split
    · exact modify_field _ _ _ Proc.stopSig (by simp) p
    · rfl
  rw [stop, hwake, modify_procs_self]

variable {writable : Bool}

theorem deliver_stops {s : Fin nsig} {disp : BitVec 64} (hnot : (k.procs p).state ≠ .stopped)
    (hs : ((k.deliver p s disp writable).procs p).state = .stopped) :
    disp = sigDfl ∧ (s = sigtstp ∨ s = sigstop) ∧
      ((k.deliver p s disp writable).procs p).stopSig = BitVec.ofNat 32 s.val := by
  have hconsumed : ((k.modify p (clearPending s)).procs p).state ≠ .stopped := by
    rw [modify_procs_self]
    exact hnot
  simp only [deliver] at hs ⊢
  split at hs
  · exact absurd hs hconsumed
  case isFalse hign =>
    rw [if_neg hign]
    split at hs
    case isTrue hdfl =>
      rw [if_pos hdfl]
      split at hs
      · exact absurd hs hconsumed
      case isFalse hignore =>
        rw [if_neg hignore]
        split at hs
        case isTrue hstop =>
          rw [if_pos hstop]
          exact ⟨hdfl, hstop, stop_stopSig _ p s⟩
        case isFalse =>
          rw [exit_state] at hs
          cases hs
    case isFalse =>
      split at hs
      · exact absurd hs hnot
      split at hs
      · simp only [build, modify_procs_self] at hs
        exact absurd hs hnot
      rw [exit_state] at hs
      cases hs

theorem signalDispatch_stops (hnot : (k.procs p).state ≠ .stopped)
    (hs : ((k.signalDispatch p writable).procs p).state = .stopped) :
    ∃ s, Respects (k.procs p) s ∧
      ((k.signalDispatch p writable).procs p).stopSig = BitVec.ofNat 32 s.val := by
  simp only [signalDispatch] at hs ⊢
  split at hs
  · exact absurd hs hnot
  case isFalse hring3 =>
    rw [if_neg hring3]
    split at hs
    · exact absurd hs hnot
    case h_2 s hpick =>
      obtain ⟨hdfl, hstop, hsig⟩ := deliver_stops hnot hs
      obtain ⟨_, hpending, hmask⟩ := ((deliverable_eq_some _ _).mp hpick).1
      have hpend : (k.procs p).sigPending &&& sigBit s ≠ 0#32 := by
        rw [Ne, and_sigBit_eq_zero, hpending]
        decide
      refine ⟨s, ?_, hsig⟩
      rcases hstop with rfl | rfl
      · exact .inr ⟨rfl, hpend, (and_sigBit_eq_zero ..).mpr hmask, hdfl⟩
      · exact .inl ⟨rfl, hpend⟩

/-- `signal_check_stop` stops for a pending `SIGTSTP`, else for a pending `SIGSTOP`, and
respects what the task asked for unless the `SIGTSTP` was overridden. -/
theorem signalCheckStop_stops (hnot : (k.procs p).state ≠ .stopped)
    (hs : ((k.signalCheckStop p).1.procs p).state = .stopped) :
    ∃ s, ((k.signalCheckStop p).1.procs p).stopSig = BitVec.ofNat 32 s.val ∧
      (s = sigtstp ∧ (k.procs p).sigPending &&& sigBit sigtstp ≠ 0#32 ∨
        s = sigstop ∧ (k.procs p).sigPending &&& sigBit sigstop ≠ 0#32 ∧
          (k.procs p).sigPending &&& sigBit sigtstp = 0#32) := by
  have hpick : (k.procs p).sigPending &&& (sigBit sigtstp ||| sigBit sigstop) &&& sigBit sigtstp =
      (k.procs p).sigPending &&& sigBit sigtstp := by
    rw [BitVec.and_assoc]
    rfl
  simp only [signalCheckStop, hpick] at hs ⊢
  split at hs
  · exact absurd hs hnot
  case isFalse hstops =>
    rw [if_neg hstops]
    refine ⟨_, stop_stopSig _ p _, ?_⟩
    split
    case isTrue htstp => exact .inl ⟨rfl, htstp⟩
    case isFalse htstp =>
      rw [not_not] at htstp
      refine .inr ⟨rfl, ?_, htstp⟩
      intro hnone
      refine hstops (.inr ?_)
      rw [BitVec.and_or_distrib_left, htstp, hnone]
      rfl

theorem lets_signalCheckStop (k : Kernel) (p : Nat) :
    Lets (fun q st => q = p ∧ st = .stopped) k (k.signalCheckStop p).1 := by
  simp only [signalCheckStop]
  split
  · exact lets_refl k
  · exact (lets_of_cores (k.cores_clearPending p _)).trans (lets_stop _ ⟨rfl, rfl⟩ _)

/-! ### A pass of a loop -/

theorem interrupted_cases (k : Kernel) (p : Nat) :
    (k.interrupted p).1 = k ∨ (k.interrupted p).1 = (k.signalCheckStop p).1 := by
  simp only [interrupted]
  split
  · split
    case h_1 he | h_2 he => exact .inr (congrArg Prod.fst he).symm
  · exact .inl rfl

theorem stdinReadLine_kernel (k : Kernel) (p : Nat) (max : Int) (l : Line) (c : BitVec 8) :
    (k.stdinReadLine p max l c).1 = k ∨ (k.stdinReadLine p max l c).1 = (k.interrupted p).1 := by
  simp only [stdinReadLine]
  split
  · split
    · exact .inl rfl
    · split
      case h_1 he | h_2 he => exact .inr (congrArg Prod.fst he).symm
  · generalize (if c = carriageReturn then newline else c) = c
    split
    case isTrue | isFalse => exact .inl rfl

theorem stdinReadRaw_kernel (k : Kernel) (p : Nat) (max : Int) (l : Line) (key : BitVec 32) :
    (k.stdinReadRaw p max l key).1 = k ∨ (k.stdinReadRaw p max l key).1 = (k.interrupted p).1 := by
  simp only [stdinReadRaw]
  split
  · split
    · exact .inl rfl
    · split
      case h_1 he | h_2 he => exact .inr (congrArg Prod.fst he).symm
  split
  · split
    · exact .inl rfl
    · split
      case isTrue | isFalse => exact .inl rfl
  · exact .inl rfl

theorem stdinReadkey_kernel (k : Kernel) (p : Nat) (timeout deadline tick key : BitVec 32) :
    (k.stdinReadkey p timeout deadline tick key).1 = k ∨
      (k.stdinReadkey p timeout deadline tick key).1 = (k.interrupted p).1 := by
  simp only [stdinReadkey]
  split
  · exact .inl rfl
  by_cases hp : p = 0
  · simp [hp]
  simp only [if_neg hp]
  split
  case h_1 he | h_2 he => exact .inr (congrArg Prod.fst he).symm

theorem doSleepMs_kernel (k : Kernel) (p : Nat) (deadline tick : BitVec 32) :
    (k.doSleepMs p deadline tick).1 = k ∨ (k.doSleepMs p deadline tick).1 = (k.interrupted p).1 ∨
      (k.doSleepMs p deadline tick).1 = k.modify p fun t => {t with state := .blocked} := by
  simp only [doSleepMs]
  split
  · exact .inl rfl
  split
  · exact .inl rfl
  split
  case h_1 he => exact .inr (.inl (congrArg Prod.fst he).symm)
  case h_2 k' he =>
    have hk : k' = k := by
      simp only [interrupted] at he
      split at he
      · split at he <;> exact nomatch congrArg Prod.snd he
      · exact (congrArg Prod.fst he).symm
    exact .inr (.inr (by rw [hk]))

end
end Kernel

/-- A pass leaves the kernel as it is, stops its task, or parks it until a tick. -/
theorem StopEvent.perform_cases (k : Kernel) {e : StopEvent} {p : Nat} (he : e.waiter = some p) :
    e.perform k = k ∨ e.perform k = (k.signalCheckStop p).1 ∨
      e.perform k = k.modify p fun t => {t with state := .blocked} := by
  have hread {k' : Kernel} (h : k' = k ∨ k' = (k.interrupted p).1) :
      k' = k ∨ k' = (k.signalCheckStop p).1 ∨
        k' = k.modify p fun t => {t with state := .blocked} := by
    rcases h with h | h
    · exact .inl h
    rw [h]
    exact (k.interrupted_cases p).imp id .inl
  cases e with
  | call => exact nomatch he
  | slept => exact nomatch he
  | readLine self max line c =>
    cases Option.some.inj he
    exact hread (k.stdinReadLine_kernel _ max line c)
  | readRaw self max line key =>
    cases Option.some.inj he
    exact hread (k.stdinReadRaw_kernel _ max line key)
  | readkey self timeout deadline tick key =>
    cases Option.some.inj he
    exact hread (k.stdinReadkey_kernel _ timeout deadline tick key)
  | sleep self deadline tick =>
    cases Option.some.inj he
    rcases k.doSleepMs_kernel p deadline tick with h | h | h
    · exact .inl h
    · exact hread (.inr h)
    · exact .inr (.inr h)

namespace StopEvent

variable {k : Kernel} {e : StopEvent} {p : Nat}

/-- A task of the table is stopped by a dispatch of its own or by a pass of its own. -/
theorem step_stops (hp : p ∈ k.table) (hnot : (k.procs p).state ≠ .stopped)
    (hs : ((e.step k).procs p).state = .stopped) :
    (∃ writable, e.step k = k.signalDispatch p writable ∧ e.waiter = none) ∨
      e.waiter = some p ∧ e.step k = (k.signalCheckStop p).1 := by
  rw [step] at hs ⊢
  split at hs
  case isFalse => exact absurd hs hnot
  case isTrue hcaller =>
    rw [if_pos hcaller]
    cases he : e.waiter with
    | some q =>
      rcases perform_cases k he with hk' | hk' | hk'
      · rw [hk'] at hs
        exact absurd hs hnot
      · rcases eq_or_ne p q with rfl | hne
        · exact .inr ⟨rfl, hk'⟩
        · rw [hk'] at hs
          exact absurd ((k.lets_signalCheckStop q).kept hs nofun fun h => hne h.1) hnot
      · rw [hk'] at hs
        have hsleeps : Lets (fun _ st => st = .blocked) k
            (k.modify q fun t => {t with state := .blocked}) := lets_modify k q (.inr (.inr rfl))
        exact absurd (hsleeps.kept hs nofun nofun) hnot
    | none =>
      cases e with
      | call op =>
        by_cases hop : ∃ writable, op = .dispatch p writable
        · obtain ⟨writable, rfl⟩ := hop
          have hcall : ∀ q ∈ (Op.dispatch p writable).caller, q ∈ k.table := by
            intro q hq
            exact Option.mem_some.mp hq ▸ hp
          exact .inl ⟨writable, if_pos hcall, rfl⟩
        · exact absurd (unstopped_step (fun w h => hop ⟨w, h⟩) hs) hnot
      | slept self =>
        simp only [perform, Kernel.slept] at hs
        split at hs
        · have hwakes : Lets (fun _ _ => False) k
              (k.modify self fun t => {t with state := .run}) := lets_modify k self (.inr (.inl rfl))
          exact absurd (hwakes.kept hs nofun id) hnot
        · exact absurd hs hnot
      | readLine | readRaw | readkey | sleep => exact nomatch he

end StopEvent

/-- Whenever a task is stopped, in any run, it is stopped for a pending `SIGSTOP`, or for a
pending `SIGTSTP` that it neither blocks nor catches nor ignores, unless it is a loop of
`Console` that stops it, with a `SIGTSTP` pending that it blocks, catches or ignores. -/
theorem stop_respects_disposition_iff (init : Nat) (events : List StopEvent) (e : StopEvent)
    (p : Nat) (hp : p ∈ (StopEvent.after init events).table)
    (hnot : ((StopEvent.after init events).procs p).state ≠ .stopped)
    (hstop : ((e.step (StopEvent.after init events)).procs p).state = .stopped) :
    (∃ s, Respects ((StopEvent.after init events).procs p) s ∧
        ((e.step (StopEvent.after init events)).procs p).stopSig = BitVec.ofNat 32 s.val) ↔
      ¬ (e.waiter = some p ∧ Overridden ((StopEvent.after init events).procs p)) := by
  generalize StopEvent.after init events = k at *
  rcases StopEvent.step_stops hp hnot hstop with ⟨writable, hk', hnone⟩ | ⟨hwaits, hk'⟩
  · rw [hk'] at hstop ⊢
    refine iff_of_true (signalDispatch_stops hnot hstop) fun h => ?_
    exact absurd (hnone.symm.trans h.1) nofun
  rw [hk'] at hstop ⊢
  obtain ⟨s, hsig, hwhy⟩ := signalCheckStop_stops hnot hstop
  constructor
  · rintro ⟨u, hrespects, hu⟩ ⟨_, hpending, hover⟩
    rcases hwhy with ⟨rfl, _⟩ | ⟨_, _, hnone⟩
    · rcases hrespects with ⟨rfl, _⟩ | ⟨_, _, hmask, hdfl⟩
      · exact absurd (hsig.symm.trans hu) (by decide)
      · exact hover ⟨hmask, hdfl⟩
    · exact hpending hnone
  · intro h
    refine ⟨s, ?_, hsig⟩
    rcases hwhy with ⟨rfl, hpending⟩ | ⟨rfl, hpending, _⟩
    · have hdefault := not_not.mp fun hover => h ⟨hwaits, hpending, hover⟩
      exact .inr ⟨rfl, hpending, hdefault.1, hdefault.2⟩
    · exact .inl ⟨rfl, hpending⟩

/-- A task is loaded, with this disposition for `SIGTSTP`, and sent one. -/
def suspended (disp : BitVec 64) : List StopEvent :=
  [.call (.load (.loaded 1 0x400000#64 0x500000#64) 0x7FFFFFFFEFE0#64 2 3),
    .call (.signal 2 20#32 disp 0), .call (.kill 2#32 20#32)]

/-- With the default disposition it is stopped, as it should be, while it reads a key. -/
theorem stop_respects_disposition_default :
    ((StopEvent.step (StopEvent.after 1 (suspended 0)) (.readkey 2 0 0 0 0)).procs 2).state =
        .stopped ∧
      ∃ s, Respects ((StopEvent.after 1 (suspended 0)).procs 2) s ∧
        ((StopEvent.step (StopEvent.after 1 (suspended 0)) (.readkey 2 0 0 0 0)).procs 2).stopSig =
          BitVec.ofNat 32 s.val := by
  refine ⟨by decide, (stop_respects_disposition_iff 1 (suspended 0) (.readkey 2 0 0 0 0) 2
    (by decide) (by decide) (by decide)).mpr ?_⟩
  rintro ⟨_, _, hover⟩
  exact hover (by decide)

/-- A task that ignores `SIGTSTP` is stopped by it while it sleeps, and so is one that handles
it while it reads a line. -/
theorem ignored_tstp_stops :
    ((StopEvent.step (StopEvent.after 1 (suspended sigIgn)) (.sleep 2 10 0)).procs 2).state =
        .stopped ∧
      ((StopEvent.after 1 (suspended sigIgn)).procs 2).state ≠ .stopped ∧
      ¬ (∃ s, Respects ((StopEvent.after 1 (suspended sigIgn)).procs 2) s) ∧
      ((StopEvent.step (StopEvent.after 1 (suspended 0x401000#64))
        (.readLine 2 80 ⟨[], []⟩ 0)).procs 2).state = .stopped ∧
      ((StopEvent.after 1 (suspended 0x401000#64)).procs 2).state ≠ .stopped ∧
      ¬ (∃ s, Respects ((StopEvent.after 1 (suspended 0x401000#64)).procs 2) s) := by
  have hnone (disp : BitVec 64) (hstop : ((StopEvent.after 1 (suspended disp)).procs 2).sigPending &&&
      sigBit sigstop = 0#32) (hdisp : ((StopEvent.after 1 (suspended disp)).procs 2).sigHandlers
        sigtstp ≠ sigDfl) : ¬ ∃ s, Respects ((StopEvent.after 1 (suspended disp)).procs 2) s := by
    rintro ⟨s, ⟨_, hpending⟩ | ⟨_, _, _, hdfl⟩⟩
    · exact hpending hstop
    · exact hdisp hdfl
  exact ⟨by decide, by decide, hnone _ (by decide) (by decide), by decide, by decide,
    hnone _ (by decide) (by decide)⟩

end Nyx.Process
