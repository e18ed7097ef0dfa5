import Nyx.Lib.Wrapping
import Nyx.Process.Stops
import Nyx.Scheduler.Current

/-! Sleeps and alarms on the tick counter (`syscall.c`, `signal.c`, `process.c`).

`tick_count` counts the timer interrupts in 32 bits. A task that sleeps keeps the tick to wake
it at in `wake_tick`, one with an alarm the tick of its signal in `alarm_tick` (0 for none), and
`irq_scheduler_tick` compares both with the counter at every interrupt. Beside the counter runs
`now`, which never wraps; each sleep and each alarm keeps what was asked for and when, and no
operation reads any of it. -/
namespace Nyx.Timers
open Nyx.Process Nyx.Process.Kernel Nyx.Scheduler Nyx.Lib

/-! ### Requests -/

/-- What a task asks for: the argument of `SYS_SLEEP`, or the `timespec` that `SYS_NANOSLEEP`
has copied in. -/
inductive Request where
  | sleep (ms : BitVec 32)
  | nanosleep (sec nsec : BitVec 64)
deriving DecidableEq

namespace Request

def valid : Request → Bool
  | .sleep _ => true
  | .nanosleep sec nsec =>
    !(sec.slt 0#64 || nsec.slt 0#64 || (1000000000#64).sle nsec)

/-- The milliseconds that `do_sleep_ms` is called with. -/
def millis : Request → BitVec 32
  | .sleep ms => ms
  | .nanosleep sec nsec =>
    let ms := sec * 1000#64 + (nsec + 999999#64) / 1000000#64
    (if 0xFFFFFFFF#64 < ms then 0xFFFFFFFF#64 else ms).setWidth 32

/-- The time asked for, in nanoseconds, of which `nanosleep` grants 2³² - 1 milliseconds. -/
def nanos : Request → Nat
  | .sleep ms => ms.toNat * 10 ^ 6
  | .nanosleep sec nsec => min (sec.toNat * 10 ^ 9 + nsec.toNat) ((2 ^ 32 - 1) * 10 ^ 6)

end Request

/-! ### The machine -/

/-- A call of `do_sleep_ms` that has not returned. It waits at its `hlt` or, `stopped`, in
`signal_check_stop`. -/
structure Sleep where
  request : Request
  started : Nat
  deadline : BitVec 32
  stopped : Bool
deriving DecidableEq

structure Return where
  request : Request
  started : Nat
  returned : Nat
  result : BitVec 32
deriving DecidableEq

/-- A call of `do_alarm`. -/
structure Alarm where
  seconds : BitVec 32
  set : Nat
deriving DecidableEq

structure Clock where
  smp : Smp
  tickCount : BitVec 32
  wakeTick : Nat → BitVec 32
  alarmTick : Nat → BitVec 32
  now : Nat
  sleeping : Nat → Option Sleep
  alarm : Nat → Alarm
  returns : List Return
  /-- The alarms whose signal was posted, and when. -/
  posts : List (Alarm × Nat)

namespace Clock

/-- Nobody sleeps and no alarm is set. -/
def start (smp : Smp) (now : Nat) : Clock :=
  ⟨smp, BitVec.ofNat 32 now, fun _ => 0, fun _ => 0, now, fun _ => none, fun _ => ⟨0, 0⟩, [], []⟩

variable (c : Clock)

def kernel : Kernel := c.smp.kernel

def state (p : Nat) : PState := (c.kernel.procs p).state

def withKernel (k : Kernel) : Clock := {c with smp := {c.smp with kernel := k}}

def setWakeTick (p : Nat) (tick : BitVec 32) : Clock :=
  {c with wakeTick := Function.update c.wakeTick p tick}

def setSleeping (p : Nat) (s : Option Sleep) : Clock :=
  {c with sleeping := Function.update c.sleeping p s}

/-- `signal_raise`, which ends the sleep of a blocked task. -/
def signalRaise (p : Nat) (sig : BitVec 32) : Clock :=
  let raised := c.withKernel (c.kernel.signalRaise p sig)
  if (signo sig).isSome = true ∧ c.state p = .blocked then raised.setWakeTick p 0 else raised

/-! ### Ticks -/

def wakeSleeper (p : Nat) : Clock :=
  if p ≠ 0 ∧ c.state p = .blocked ∧ c.wakeTick p ≠ 0 ∧ reached c.tickCount (c.wakeTick p) then
    (c.withKernel (c.kernel.modify p fun t => {t with state := .run})).setWakeTick p 0
  else c

def raiseAlarm (p : Nat) : Clock :=
  if p ≠ 0 ∧ c.alarmTick p ≠ 0 ∧ reached c.tickCount (c.alarmTick p) then
    { c with
      alarmTick := Function.update c.alarmTick p 0
      posts := (c.alarm p, c.now) :: c.posts }.signalRaise p Smp.sigalrm
  else c

/-- The wait queue of the timer, then the alarms, then the choice of the next task. -/
def irqSchedulerTick (dormant : Bool) : Clock :=
  let c := c.kernel.table.foldl raiseAlarm (c.kernel.table.foldl wakeSleeper c)
  {c with smp := c.smp.schedule dormant}

/-- An interrupt of CPU 0. All of them end in `irq_scheduler_tick`, that of the timer counts. -/
def irq (timer dormant : Bool) : Clock :=
  let c := if timer then {c with tickCount := c.tickCount + 1, now := c.now + 1} else c
  c.irqSchedulerTick dormant

/-! ### System calls -/

/-- The tick of an alarm set at `tick`: never 0. -/
def alarmDeadline (tick seconds : BitVec 32) : BitVec 32 :=
  if tick + seconds * 1000#32 ≠ 0 then tick + seconds * 1000#32 else 1

/-- `do_alarm`: what is returned are the seconds left on the previous alarm. -/
def doAlarm (p : Nat) (seconds : BitVec 32) : Clock × BitVec 32 :=
  if p = 0 then (c, 0)
  else
    let left := c.alarmTick p - c.tickCount
    let remaining := if c.alarmTick p ≠ 0 ∧ (0#32).slt left then (left + 999#32) / 1000#32 else 0
    let tick := if seconds = 0 then 0 else alarmDeadline c.tickCount seconds
    ({ c with
        alarmTick := Function.update c.alarmTick p tick
        alarm := Function.update c.alarm p ⟨seconds, c.now⟩ }, remaining)

/-- A pass of the loop of `do_sleep_ms`. -/
def pass (p : Nat) (s : Sleep) : Clock :=
  match c.kernel.doSleepMs p s.deadline c.tickCount with
  | (k, .done result) =>
    { (c.withKernel k).setSleeping p none with
      returns := ⟨s.request, s.started, c.now, result⟩ :: c.returns }
  | (k, .stopped) => (c.withKernel k).setSleeping p (some {s with stopped := true})
  | (k, _) =>
    let c := (c.withKernel k).setSleeping p (some {s with stopped := false})
    if p = 0 then c else c.setWakeTick p s.deadline

/-- `SYS_SLEEP` and `SYS_NANOSLEEP`. -/
def sleep (p : Nat) (request : Request) : Clock :=
  if request.valid then c.pass p ⟨request, c.now, c.tickCount + request.millis, false⟩
  else {c with returns := ⟨request, c.now, c.now, failed⟩ :: c.returns}

/-- The task goes on behind its `hlt`, or behind `signal_check_stop` once it is not stopped any
more, and makes another pass. -/
def resume (p : Nat) : Clock :=
  match c.sleeping p with
  | none => c
  | some s =>
    if s.stopped then
      if c.state p = .stopped then c else (c.withKernel (c.kernel.resumed p)).pass p s
    else if p = 0 then c.pass p s
    else ((c.withKernel (c.kernel.slept p)).setWakeTick p 0).pass p s

/-! ### Everything else -/

def block : Scheduler.Event → Option Nat
  | .call _ (.createProcess _ block _) => some block
  | .call _ (.load _ _ block _) => some block
  | .call _ (.spawn _ _ _ block _) => some block
  | .call _ (.fork _ _ block _ _) => some block
  | .call _ (.clone _ _ _ _ _ block _) => some block
  | .threadOn _ block _ => some block
  | .idle block _ => some block
  | _ => none

/-- The machine goes on to `smp`. A record that was filled in, which then has a new pid, begins
with all fields 0. -/
def renewed (smp : Smp) (block : Option Nat) : Clock :=
  let born (q : Nat) : Prop := block = some q ∧ smp.kernel.nextPid ≠ c.kernel.nextPid
  { c with
    smp := smp
    wakeTick := fun q => if born q then 0 else c.wakeTick q
    alarmTick := fun q => if born q then 0 else c.alarmTick q
    sleeping := fun q => if born q then none else c.sleeping q }

def doKill (pid sig : BitVec 32) : Clock :=
  if nsig ≤ sig.toNat then c
  else
    match c.kernel.findProcess pid with
    | none => c
    | some target => c.signalRaise target sig

def machine (e : Scheduler.Event) : Clock :=
  match e with
  | .tick _ => c
  | .call _ (.kill pid sig) => c.doKill pid sig
  | .call _ op =>
    if ∀ p ∈ op.caller, c.sleeping p = none then c.renewed (c.smp.step e) (block e) else c
  | _ => c.renewed (c.smp.step e) (block e)

end Clock

inductive Event where
  | irq (timer dormant : Bool)
  | sleep (p : Nat) (request : Request)
  | resume (p : Nat)
  | alarm (p : Nat) (seconds : BitVec 32)
  /-- From outside the process layer, as the keyboard does. -/
  | raise (p : Nat) (sig : BitVec 32)
  | machine (e : Scheduler.Event)

namespace Clock

/-- Calls are made by tasks that run and do not sleep; 0 is the kernel before it has tasks. -/
def Calls (c : Clock) (p : Nat) : Prop :=
  c.sleeping p = none ∧ (p = 0 ∨ p ∈ c.kernel.table ∧ c.state p = .run)

instance (c : Clock) (p : Nat) : Decidable (c.Calls p) := inferInstanceAs (Decidable (_ ∧ _))

def step (c : Clock) : Event → Clock
  | .irq timer dormant => c.irq timer dormant
  | .sleep p request => if c.Calls p then c.sleep p request else c
  | .resume p => c.resume p
  | .alarm p seconds => if c.Calls p then (c.doAlarm p seconds).1 else c
  | .raise p sig => c.signalRaise p sig
  | .machine e => c.machine e

end Clock

/-! ### What the clock keeps -/

/-- At most half a turn of the counter. -/
def Request.Fits : Request → Prop
  | .sleep ms => ms.toNat ≤ 2 ^ 31
  | .nanosleep sec nsec => sec.toNat * 1000 + (nsec.toNat + 999999) / 1000000 ≤ 2 ^ 31

/-- The call was made at `started`, and its deadline is that of its request. -/
structure Sleep.Since (s : Sleep) (now : Nat) : Prop where
  started : s.started ≤ now
  deadline : s.deadline = BitVec.ofNat 32 s.started + s.request.millis

def Return.OnTime (r : Return) : Prop := r.started * 10 ^ 6 + r.request.nanos ≤ r.returned * 10 ^ 6

/-- Posted at `now`, the signal comes when the seconds are over. -/
def Alarm.OnTime (a : Alarm) (now : Nat) : Prop := a.set + a.seconds.toNat * 1000 ≤ now

def Alarm.Fits (a : Alarm) : Prop := a.seconds.toNat * 1000 ≤ 2 ^ 31

namespace Clock

structure Timed (c : Clock) : Prop where
  count : c.tickCount = BitVec.ofNat 32 c.now
  sleeps : ∀ p s, c.sleeping p = some s → s.Since c.now
  parked : ∀ p s, p ≠ 0 → c.sleeping p = some s → c.state p = .blocked → c.wakeTick p = s.deadline
  alarms : ∀ p, c.alarmTick p ≠ 0 → (c.alarm p).set ≤ c.now ∧
    c.alarmTick p = alarmDeadline (BitVec.ofNat 32 (c.alarm p).set) (c.alarm p).seconds
  returns : ∀ r ∈ c.returns, r.result = 0 → r.request.Fits → r.OnTime
  posts : ∀ a ∈ c.posts, a.1.Fits → a.1.OnTime a.2

theorem timed_start (smp : Smp) (now : Nat) : (start smp now).Timed where
  count := rfl
  sleeps _ _ h := nomatch h
  parked _ _ _ h := nomatch h
  alarms _ h := absurd rfl h
  returns _ h := nomatch h
  posts _ h := nomatch h

/-- No time passes, nothing is asked for and nothing granted; who sleeps on is blocked only if
it was, and then with the same tick to be woken at. -/
structure Quiet (c c' : Clock) : Prop where
  now : c'.now = c.now
  count : c'.tickCount = c.tickCount
  sleeping : ∀ p s, c'.sleeping p = some s → c.sleeping p = some s
  parked : ∀ p, p ≠ 0 → (c'.sleeping p).isSome → c'.state p = .blocked →
    c.state p = .blocked ∧ c'.wakeTick p = c.wakeTick p
  alarms : ∀ p, c'.alarmTick p = 0 ∨ c'.alarmTick p = c.alarmTick p
  alarm : c'.alarm = c.alarm
  returns : c'.returns = c.returns
  posts : c'.posts = c.posts

variable {c c' : Clock}

theorem Quiet.timed (hq : Quiet c c') (h : c.Timed) : c'.Timed where
  count := by rw [hq.count, hq.now, h.count]
  sleeps p s hs := hq.now ▸ h.sleeps p s (hq.sleeping p s hs)
  parked p s hp hs hb := by
    obtain ⟨hblocked, hwake⟩ := hq.parked p hp (Option.isSome_of_eq_some hs) hb
    rw [hwake]
    exact h.parked p s hp (hq.sleeping p s hs) hblocked
  alarms p ha := by
    rcases hq.alarms p with h0 | he
    · exact absurd h0 ha
    rw [hq.alarm, hq.now, he]
    exact h.alarms p (he ▸ ha)
  returns := hq.returns ▸ h.returns
  posts := hq.posts ▸ h.posts

/-- Only the kernel is another, in which who sleeps is blocked only if it was. -/
theorem quiet_withKernel {k : Kernel} (hk : ∀ p, (c.sleeping p).isSome → p ≠ 0 →
    (k.procs p).state = .blocked → c.state p = .blocked) : Quiet c (c.withKernel k) where
  now := rfl
  count := rfl
  sleeping _ _ hs := hs
  parked p hp hs hb := ⟨hk p hs hp hb, rfl⟩
  alarms _ := .inr rfl
  alarm := rfl
  returns := rfl
  posts := rfl

theorem Quiet.setWakeTick (hq : Quiet c c') (p : Nat) (tick : BitVec 32)
    (hp : (c'.sleeping p).isSome → c'.state p ≠ .blocked) : Quiet c (c'.setWakeTick p tick) where
  now := hq.now
  count := hq.count
  sleeping := hq.sleeping
  parked q hq0 hs hb := by
    have hne : q ≠ p := fun he => hp (he ▸ hs) (he ▸ hb)
    obtain ⟨hblocked, hwake⟩ := hq.parked q hq0 hs hb
    exact ⟨hblocked, (Function.update_of_ne hne ..).trans hwake⟩
  alarms := hq.alarms
  alarm := hq.alarm
  returns := hq.returns
  posts := hq.posts

theorem quiet_refl (c : Clock) : Quiet c c :=
  ⟨rfl, rfl, fun _ _ h => h, fun _ _ _ hb => ⟨hb, rfl⟩, fun _ => .inr rfl, rfl, rfl, rfl⟩

end Clock

/-! ### Signals -/

theorem signalRaise_awake (k : Kernel) (p : Nat) {sig : BitVec 32} (hs : (signo sig).isSome) :
    ((k.signalRaise p sig).procs p).state ≠ .blocked := by
  obtain ⟨s, hs⟩ := Option.isSome_iff_exists.mp hs
  simp only [Kernel.signalRaise, hs]
  generalize (if s = sigcont ∧ (k.procs p).state = .stopped then _ else k) = woken
  generalize woken.modify p (fun t => {t with sigPending := t.sigPending ||| sigBit s}) = posted
  split
  case isTrue =>
    rw [modify_procs_self]
    exact PState.noConfusion
  case isFalse h => exact h

namespace Clock
variable {c c' : Clock}

theorem quiet_signalRaise (c : Clock) (p : Nat) (sig : BitVec 32) :
    Quiet c (c.signalRaise p sig) := by
  have hlets : Lets (fun _ _ => False) c.kernel (c.kernel.signalRaise p sig) :=
    c.kernel.lets_signalRaise p sig
  have hraised : Quiet c (c.withKernel (c.kernel.signalRaise p sig)) :=
    quiet_withKernel fun _ _ _ hb => hlets.kept hb nofun id
  rw [signalRaise]
  split
  case isTrue h => exact hraised.setWakeTick p 0 fun _ => signalRaise_awake _ p h.1
  case isFalse => exact hraised

/-! ### Ticks -/

theorem quiet_wakeSleeper (c : Clock) (p : Nat) : Quiet c (c.wakeSleeper p) := by
  rw [wakeSleeper]
  split
  · generalize hk : (c.kernel.modify p fun t => {t with state := .run}) = k
    have hlets : Lets (fun _ _ => False) c.kernel k := hk ▸ lets_modify c.kernel p (.inr (.inl rfl))
    have hrun : (k.procs p).state = .run := by
      rw [← hk, modify_procs_self]
    have hwoken : Quiet c (c.withKernel k) :=
      quiet_withKernel fun _ _ _ hb => hlets.kept hb nofun id
    exact hwoken.setWakeTick p 0 fun _ hb => nomatch hrun.symm.trans hb
  · exact quiet_refl c

theorem Timed.alarm_onTime (h : c.Timed) {p : Nat} (hset : c.alarmTick p ≠ 0)
    (hdue : reached c.tickCount (c.alarmTick p) = true) (hfits : (c.alarm p).Fits) :
    (c.alarm p).OnTime c.now := by
  obtain ⟨hle, htick⟩ := h.alarms p hset
  generalize c.alarm p = a at hle htick hfits
  rw [Alarm.Fits] at hfits
  by_contra hearly
  rw [Alarm.OnTime, not_le] at hearly
  have hnow : c.tickCount = BitVec.ofNat 32 (a.set + (c.now - a.set)) := by
    rw [h.count, Nat.add_sub_cancel' hle]
  have hsum : BitVec.ofNat 32 a.set + a.seconds * 1000#32 =
      BitVec.ofNat 32 (a.set + a.seconds.toNat * 1000) := by
    apply BitVec.eq_of_toNat_eq
    simp only [BitVec.toNat_add, BitVec.toNat_mul, BitVec.toNat_ofNat]
    omega
  rw [htick, alarmDeadline, hnow] at hdue
  split at hdue
  · rw [hsum, not_reached (by omega) (by omega)] at hdue
    exact nomatch hdue
  case isFalse hzero =>
    -- The deadline would be 0, and the alarm is one tick late.
    rw [not_not, hsum] at hzero
    have hone : 1 = BitVec.ofNat 32 (a.set + (a.seconds.toNat * 1000 + 1)) := by
      rw [← Nat.add_assoc, BitVec.ofNat_add, hzero]
      rfl
    rw [hone, not_reached (by omega) (by omega)] at hdue
    exact nomatch hdue

theorem Timed.raiseAlarm (h : c.Timed) (p : Nat) : (c.raiseAlarm p).Timed := by
  rw [Clock.raiseAlarm]
  split
  case isTrue hp =>
    obtain ⟨_, hset, hdue⟩ := hp
    refine (quiet_signalRaise _ p Smp.sigalrm).timed ?_
    refine {h with alarms := fun q hq => ?_, posts := fun a ha hfits => ?_}
    · rcases eq_or_ne q p with rfl | hne
      · exact absurd (Function.update_self ..) hq
      · dsimp only at hq ⊢
        rw [Function.update_of_ne hne] at hq ⊢
        exact h.alarms q hq
    · rcases List.mem_cons.mp ha with rfl | hold
      · exact h.alarm_onTime hset hdue hfits
      · exact h.posts a hold hfits
  case isFalse => exact h

end Clock

theorem schedule_procs (s : Smp) (dormant : Bool) :
    (s.schedule dormant).kernel.procs = s.kernel.procs := by
  simp only [Smp.schedule]
  split
  · rfl
  split
  · rfl
  split
  · rfl
  case h_2 cur _ _ _ =>
    have hsaved : (s.saveContext cur).kernel.procs = s.kernel.procs := by
      rw [Smp.saveContext]
      split <;> rfl
    rw [← hsaved, Smp.nextTask]
    split
    · rfl
    · split <;> rfl

namespace Clock
variable {c c' : Clock}

theorem quiet_schedule (c : Clock) (dormant : Bool) :
    Quiet c {c with smp := c.smp.schedule dormant} := { quiet_refl c with
    parked := fun p _ _ hb => by
      simp only [state, kernel, schedule_procs] at hb
      exact ⟨hb, rfl⟩ }

theorem Timed.irqSchedulerTick (h : c.Timed) (dormant : Bool) :
    (c.irqSchedulerTick dormant).Timed := by
  refine (quiet_schedule _ dormant).timed ?_
  refine foldl_keeps (fun _ p hc => hc.raiseAlarm p) _ ?_
  exact foldl_keeps (fun _ p hc => (quiet_wakeSleeper _ p).timed hc) _ h

theorem Timed.irq (h : c.Timed) (timer dormant : Bool) : (c.irq timer dormant).Timed := by
  rw [Clock.irq]
  refine Timed.irqSchedulerTick ?_ dormant
  split
  · refine {h with count := ?_, sleeps := fun p s hs => ?_, alarms := fun p hp => ?_}
    · dsimp only
      rw [h.count, BitVec.ofNat_add]
      rfl
    · exact {h.sleeps p s hs with started := Nat.le_succ_of_le (h.sleeps p s hs).started}
    · exact (h.alarms p hp).imp Nat.le_succ_of_le id
  · exact h

/-! ### Alarms and sleeps -/

theorem Timed.doAlarm (h : c.Timed) (p : Nat) (seconds : BitVec 32) :
    (c.doAlarm p seconds).1.Timed := by
  rw [Clock.doAlarm]
  split
  · exact h
  refine {h with alarms := fun q hq => ?_}
  dsimp only at hq ⊢
  rcases eq_or_ne q p with rfl | hne
  · rw [Function.update_self] at hq ⊢
    rw [Function.update_self]
    split at hq
    case isTrue => exact absurd rfl hq
    case isFalse hsec =>
      rw [if_neg hsec, h.count]
      exact ⟨le_rfl, rfl⟩
  · rw [Function.update_of_ne hne] at hq ⊢
    rw [Function.update_of_ne hne]
    exact h.alarms q hq

end Clock

/-- No signal is pending, one ends the wait, or the task is stopped. -/
theorem interrupted_outcome (k : Kernel) (p : Nat) :
    k.interrupted p = (k, none) ∨ k.interrupted p = (k, some (.done (-eintr))) ∨
      ∃ k', k.interrupted p = (k', some .stopped) ∧ (k'.procs p).state = .stopped ∧
        Lets (fun q _ => q = p) k k' := by
  simp only [Kernel.interrupted]
  split
  · have hcheck := k.lets_signalCheckStop p
    have hstate : (k.signalCheckStop p).2 = true →
        ((k.signalCheckStop p).1.procs p).state = .stopped := by
      simp only [signalCheckStop]
      split
      · exact fun h => by cases h
      · exact fun _ => stop_state ..
    have hsame : (k.signalCheckStop p).2 = false → (k.signalCheckStop p).1 = k := by
      simp only [signalCheckStop]
      split
      · exact fun _ => rfl
      · exact fun h => by cases h
    cases hstop : k.signalCheckStop p with
    | mk k' stops =>
      rw [hstop] at hcheck hstate hsame
      cases stops with
      | true =>
        exact .inr (.inr ⟨k', rfl, hstate rfl, fun q => (hcheck q).imp id (.imp id And.left)⟩)
      | false => exact .inr (.inl (congrArg (·, _) (hsame rfl)))
  · exact .inl rfl

/-- How a pass of `do_sleep_ms` ends. -/
theorem doSleepMs_cases (k : Kernel) (p : Nat) (deadline tick : BitVec 32) :
    (k.doSleepMs p deadline tick = (k, .done 0) ∧ reached tick deadline = true) ∨
      k.doSleepMs p deadline tick = (k, .done (-eintr)) ∨
      (∃ k', k.doSleepMs p deadline tick = (k', .stopped) ∧ (k'.procs p).state = .stopped ∧
        Lets (fun q _ => q = p) k k') ∨
      ∃ k', k.doSleepMs p deadline tick = (k', .halted) ∧ Lets (fun q _ => q = p) k k' := by
  simp only [Kernel.doSleepMs]
  split
  case isTrue hdue => exact .inl ⟨rfl, hdue⟩
  case isFalse =>
    split
    · exact .inr (.inr (.inr ⟨k, rfl, lets_refl k⟩))
    case isFalse =>
      rcases interrupted_outcome k p with h | h | ⟨k', h, hstopped⟩
      · rw [h]
        exact .inr (.inr (.inr ⟨_, rfl, lets_modify k p (.inr (.inr rfl))⟩))
      · rw [h]
        exact .inr (.inl rfl)
      · rw [h]
        exact .inr (.inr (.inl ⟨k', rfl, hstopped⟩))

theorem Request.nanos_le {r : Request} (h : r.Fits) :
    r.nanos ≤ r.millis.toNat * 10 ^ 6 ∧ r.millis.toNat ≤ 2 ^ 31 := by
  cases r with
  | sleep ms => exact ⟨le_rfl, h⟩
  | nanosleep sec nsec =>
    rw [Fits] at h
    have hms : (sec * 1000#64 + (nsec + 999999#64) / 1000000#64).toNat =
        sec.toNat * 1000 + (nsec.toNat + 999999) / 1000000 := by
      have hsec : sec.toNat * 1000 < 2 ^ 64 := by omega
      have hnsec : nsec.toNat + 999999 < 2 ^ 64 := by omega
      rw [BitVec.toNat_add, BitVec.toNat_mul, BitVec.toNat_udiv, BitVec.toNat_add]
      simp only [BitVec.toNat_ofNat, Nat.reduceMod, Nat.reducePow]
      omega
    have hsmall : ¬ 0xFFFFFFFF#64 < sec * 1000#64 + (nsec + 999999#64) / 1000000#64 := by
      rw [BitVec.lt_def, hms]
      simp only [BitVec.toNat_ofNat]
      omega
    have hmillis : (Request.nanosleep sec nsec).millis.toNat =
        sec.toNat * 1000 + (nsec.toNat + 999999) / 1000000 := by
      simp only [millis, if_neg hsmall, BitVec.toNat_setWidth, hms]
      omega
    rw [hmillis, nanos]
    omega

namespace Clock
variable {c c' : Clock}

theorem Timed.return_onTime (h : c.Timed) {s : Sleep} (hs : s.Since c.now)
    (hdue : reached c.tickCount s.deadline = true) (hfits : s.request.Fits) :
    Return.OnTime ⟨s.request, s.started, c.now, 0⟩ := by
  obtain ⟨hnanos, hhalf⟩ := Request.nanos_le hfits
  have hstarted := hs.started
  have hnow : c.tickCount = BitVec.ofNat 32 (s.started + (c.now - s.started)) := by
    rw [h.count, Nat.add_sub_cancel' hstarted]
  have hdeadline : s.deadline = BitVec.ofNat 32 (s.started + s.request.millis.toNat) := by
    rw [hs.deadline, BitVec.ofNat_add, BitVec.ofNat_toNat, BitVec.setWidth_eq]
  simp only [Return.OnTime]
  by_contra hearly
  rw [hnow, hdeadline, not_reached (by omega) (by omega)] at hdue
  exact nomatch hdue

theorem Timed.setSleeping (h : c.Timed) (p : Nat) (so : Option Sleep)
    (hso : ∀ s ∈ so, s.Since c.now ∧
      (p ≠ 0 → c.state p = .blocked → c.wakeTick p = s.deadline)) : (c.setSleeping p so).Timed where
  count := h.count
  sleeps q s hs := by
    simp only [Clock.setSleeping, Function.update_apply] at hs
    split at hs
    · exact (hso s hs).1
    · exact h.sleeps q s hs
  parked q s hq hs hb := by
    simp only [Clock.setSleeping, Function.update_apply] at hs
    split at hs
    case isTrue he => exact he ▸ (hso s hs).2 (he ▸ hq) (he ▸ hb)
    case isFalse => exact h.parked q s hq hs hb
  alarms := h.alarms
  returns := h.returns
  posts := h.posts

theorem setWakeTick_same (c : Clock) (p : Nat) : c.setWakeTick p (c.wakeTick p) = c := by
  simp only [Clock.setWakeTick, Function.update_eq_self]

/-- A task may do as it likes between two sleeps. -/
theorem Timed.settle (h : c.Timed) {p : Nat} {k : Kernel}
    (hk : Lets (fun q _ => q = p) c.kernel k) (wake : BitVec 32) (so : Option Sleep)
    (hso : ∀ s ∈ so, s.Since c.now ∧ (p ≠ 0 → (k.procs p).state = .blocked → wake = s.deadline)) :
    (((c.withKernel k).setWakeTick p wake).setSleeping p so).Timed := by
  have hnone : (c.setSleeping p none).Timed := h.setSleeping p none nofun
  have hawake : ¬ ((c.setSleeping p none).sleeping p).isSome := by
    simp only [Clock.setSleeping, Function.update_self, Option.isSome_none, Bool.false_eq_true,
      not_false_eq_true]
  have hquiet : Quiet (c.setSleeping p none) ((c.withKernel k).setSleeping p none) :=
    quiet_withKernel fun q hs _ hb =>
      hk.kept hb nofun fun he => hawake (he ▸ hs)
  have hpassed := (hquiet.setWakeTick p wake fun hs => absurd hs hawake).timed hnone
  have hslept := hpassed.setSleeping p so fun s hs =>
    ⟨(hso s hs).1, fun hp hb => (Function.update_self ..).trans ((hso s hs).2 hp hb)⟩
  have hidem : ((((c.withKernel k).setSleeping p none).setWakeTick p wake).setSleeping p so) =
      ((c.withKernel k).setWakeTick p wake).setSleeping p so := by
    simp only [Clock.setSleeping, Clock.setWakeTick, Function.update_idem]
  exact hidem ▸ hslept

theorem Timed.pass (h : c.Timed) (p : Nat) {s : Sleep} (hs : s.Since c.now) :
    (c.pass p s).Timed := by
  have hdone : ((c.withKernel c.kernel).setSleeping p none).Timed := by
    have hsettled := h.settle (p := p) (lets_refl c.kernel) (c.wakeTick p) none nofun
    exact (setWakeTick_same (c.withKernel c.kernel) p) ▸ hsettled
  rw [Clock.pass]
  rcases doSleepMs_cases c.kernel p s.deadline c.tickCount with
    ⟨he, hdue⟩ | he | ⟨k, he, hstopped, hk⟩ | ⟨k, he, hk⟩
  · rw [he]
    refine {hdone with returns := fun r hr hzero hfits => ?_}
    rcases List.mem_cons.mp hr with rfl | hold
    · exact h.return_onTime hs hdue hfits
    · exact h.returns r hold hzero hfits
  · rw [he]
    refine {hdone with returns := fun r hr hzero hfits => ?_}
    rcases List.mem_cons.mp hr with rfl | hold
    · have hintr : -eintr = 0 := hzero
      exact absurd hintr (by decide)
    · exact h.returns r hold hzero hfits
  · rw [he]
    dsimp only
    have hsettled := h.settle hk (c.wakeTick p) (some {s with stopped := true}) fun t ht => by
      cases ht
      exact ⟨⟨hs.started, hs.deadline⟩, fun _ hb => nomatch hstopped.symm.trans hb⟩
    exact (setWakeTick_same (c.withKernel k) p) ▸ hsettled
  · rw [he]
    dsimp only
    split
    case isTrue hp =>
      have hsettled := h.settle hk (c.wakeTick p) (some {s with stopped := false}) fun t ht => by
          cases ht
          exact ⟨⟨hs.started, hs.deadline⟩, fun h0 => absurd hp h0⟩
      exact (setWakeTick_same (c.withKernel k) p) ▸ hsettled
    case isFalse =>
      refine h.settle hk s.deadline (some {s with stopped := false}) fun t ht => ?_
      cases ht
      exact ⟨⟨hs.started, hs.deadline⟩, fun _ _ => rfl⟩

theorem Timed.sleep (h : c.Timed) (p : Nat) (request : Request) : (c.sleep p request).Timed := by
  rw [Clock.sleep]
  split
  · exact h.pass p ⟨le_rfl, by rw [h.count]⟩
  refine {h with returns := fun r hr hzero hfits => ?_}
  rcases List.mem_cons.mp hr with rfl | hold
  · have hfailed : failed = 0 := hzero
    exact absurd hfailed (by decide)
  · exact h.returns r hold hzero hfits

theorem Timed.resume (h : c.Timed) (p : Nat) : (c.resume p).Timed := by
  rw [Clock.resume]
  split
  · exact h
  case h_2 s hs =>
    have hsince := h.sleeps p s hs
    split
    · split
      · exact h
      have hlets : Lets (fun _ _ => False) c.kernel (c.kernel.resumed p) :=
        lets_of_cores (c.kernel.cores_clearPending p sigcont)
      have hquiet : Quiet c (c.withKernel (c.kernel.resumed p)) :=
        quiet_withKernel fun _ _ _ hb => hlets.kept hb nofun id
      exact (hquiet.timed h).pass p hsince
    · split
      · exact h.pass p hsince
      have hlets : Lets (fun _ _ => False) c.kernel (c.kernel.slept p) := by
        rw [Kernel.slept]
        split
        · exact lets_modify c.kernel p (.inr (.inl rfl))
        · exact lets_refl _
      have hawake : ((c.kernel.slept p).procs p).state ≠ .blocked := by
        rw [Kernel.slept]
        split
        · rw [modify_procs_self]
          exact PState.noConfusion
        case isFalse hb => exact hb
      have hquiet : Quiet c (c.withKernel (c.kernel.slept p)) :=
        quiet_withKernel fun _ _ _ hb => hlets.kept hb nofun id
      exact ((hquiet.setWakeTick p 0 fun _ => hawake).timed h).pass p hsince

end Clock

/-! ### The rest of the machine -/

theorem caller_of_may {k : Kernel} {q : Nat} {op : Op} (h : k.may q .blocked op) :
    q ∈ op.caller := by
  cases op with
  | waitpid self | kwait self => exact h.1 ▸ rfl
  | exit | userFault => exact nomatch h.2
  | dispatch => exact nomatch h.2
  | destroyProcess => exact nomatch h.2
  | _ => exact h.elim

theorem lets_step (s : Smp) (e : Scheduler.Event) (htick : ∀ tick, e ≠ .tick tick) :
    Lets (fun q st => st = .blocked → ∃ cpu op, e = .call cpu op ∧ q ∈ op.caller) s.kernel
      (s.step e).kernel := by
  cases e with
  | tick tick => exact absurd rfl (htick tick)
  | call cpu op =>
    simp only [Smp.step]
    split
    · rw [Smp.process_kernel]
      intro q
      rcases s.kernel.lets_perform op q with he | hrun | hmay
      · exact .inl he
      · exact .inr (.inl hrun)
      · refine .inr (.inr fun hb => ⟨cpu, op, rfl, caller_of_may (k := s.kernel) ?_⟩)
        exact hb ▸ hmay
    · exact lets_refl _
  | apTick cpu busy =>
    simp only [Smp.step]
    split
    · exact lets_refl _
    have hkernel : (s.apSchedulerTick cpu busy).kernel = s.kernel := by
      simp only [Smp.apSchedulerTick]
      have hsaved : (if s.schedCur cpu = 0 then s
          else s.setTurn (s.schedCur cpu) fun t => {t with hasStack := true}).kernel =
          s.kernel := by
        split <;> rfl
      split
      · exact hsaved
      rw [← hsaved, Smp.apNextTask]
      split <;> rfl
    rw [hkernel]
    exact lets_refl _
  | threadOn cpu block stack =>
    simp only [Smp.step]
    rw [(s.placed_same _ block _).1]
    exact s.kernel.lets_createProcess true block stack
  | idle block stack =>
    simp only [Smp.step]
    split
    · exact lets_refl _
    dsimp only
    rw [(s.placed_same _ block _).1]
    exact s.kernel.lets_createProcess true block stack
  | setWeight p weight => exact lets_refl _
  | setBalance on => exact lets_refl _

namespace Clock
variable {c c' : Clock}

theorem quiet_renewed {smp : Smp} {block : Option Nat} (h : ∀ q, (c.sleeping q).isSome →
    (smp.kernel.procs q).state = .blocked → c.state q = .blocked) :
    Quiet c (c.renewed smp block) where
  now := rfl
  count := rfl
  sleeping p s hs := by
    simp only [renewed] at hs
    split at hs
    · exact nomatch hs
    · exact hs
  parked p _ hs hb := by
    simp only [renewed] at hs ⊢
    split at hs
    · exact nomatch hs
    case isFalse hborn =>
      rw [if_neg hborn]
      exact ⟨h p hs hb, rfl⟩
  alarms p := by
    simp only [renewed]
    split
    · exact .inl rfl
    · exact .inr rfl
  alarm := rfl
  returns := rfl
  posts := rfl

theorem quiet_doKill (c : Clock) (pid sig : BitVec 32) : Quiet c (c.doKill pid sig) := by
  rw [doKill]
  split
  · exact quiet_refl c
  split
  · exact quiet_refl c
  · exact quiet_signalRaise c _ sig

/-- The other events, but for those that would be calls of a task that sleeps. -/
theorem quiet_renewed_step (c : Clock) (e : Scheduler.Event) (htick : ∀ tick, e ≠ .tick tick)
    (hcall : ∀ cpu op, e = .call cpu op → ∀ p ∈ op.caller, c.sleeping p = none) :
    Quiet c (c.renewed (c.smp.step e) (block e)) := by
  refine quiet_renewed fun q hs hb => ?_
  refine (lets_step c.smp e htick).kept hb nofun fun hmay => ?_
  obtain ⟨cpu, op, he, hq⟩ := hmay rfl
  rw [hcall cpu op he q hq] at hs
  exact nomatch hs

theorem quiet_machine (c : Clock) (e : Scheduler.Event) : Quiet c (c.machine e) := by
  unfold machine
  split
  · exact quiet_refl c
  · exact quiet_doKill c _ _
  case h_3 cpu op hkill =>
    split
    case isTrue hop =>
      refine c.quiet_renewed_step _ nofun fun cpu' op' he => ?_
      cases he
      exact hop
    case isFalse => exact quiet_refl c
  case h_4 htick _ hcall =>
    exact c.quiet_renewed_step e htick fun cpu op he => absurd he (hcall cpu op)

theorem Timed.step (h : c.Timed) (e : Event) : (c.step e).Timed := by
  cases e with
  | irq timer dormant => exact h.irq timer dormant
  | sleep p request =>
    simp only [Clock.step]
    split
    · exact h.sleep p request
    · exact h
  | resume p => exact h.resume p
  | alarm p seconds =>
    simp only [Clock.step]
    split
    · exact h.doAlarm p seconds
    · exact h
  | raise p sig => exact (c.quiet_signalRaise p sig).timed h
  | machine e => exact (c.quiet_machine e).timed h

/-! ### The timers of the scheduler -/

def meets (c : Clock) (dormant : Bool) : Smp.Tick where
  slept p := decide (c.wakeTick p ≠ 0) && reached c.tickCount (c.wakeTick p)
  alarm p := decide (c.alarmTick p ≠ 0) && reached c.tickCount (c.alarmTick p)
  dormant := dormant

theorem wakeSleeper_kernel (c : Clock) (p : Nat) {tick : Smp.Tick}
    (h : tick.slept p = (c.meets false).slept p) :
    (c.wakeSleeper p).kernel = Smp.wakeSleeper tick c.kernel p := by
  simp only [Smp.wakeSleeper, h, meets, Bool.and_eq_true, decide_eq_true_eq]
  rw [wakeSleeper, state]
  split <;> rfl

theorem raiseAlarm_kernel (c : Clock) (p : Nat) {tick : Smp.Tick}
    (h : tick.alarm p = (c.meets false).alarm p) :
    (c.raiseAlarm p).kernel = Smp.raiseAlarm tick c.kernel p := by
  simp only [Smp.raiseAlarm, h, meets, Bool.and_eq_true, decide_eq_true_eq]
  rw [raiseAlarm]
  split
  · rw [signalRaise]
    split <;> rfl
  · rfl

theorem wakeSleeper_others (c : Clock) (p : Nat) :
    (c.wakeSleeper p).tickCount = c.tickCount ∧ (c.wakeSleeper p).alarmTick = c.alarmTick ∧
      (∀ q, q ≠ p → (c.wakeSleeper p).wakeTick q = c.wakeTick q) ∧
      ∀ k, ((c.wakeSleeper p).withKernel k).smp = (c.withKernel k).smp := by
  rw [wakeSleeper]
  split
  · exact ⟨rfl, rfl, fun q hq => Function.update_of_ne hq .., fun _ => rfl⟩
  · exact ⟨rfl, rfl, fun _ _ => rfl, fun _ => rfl⟩

theorem raiseAlarm_others (c : Clock) (p : Nat) : (c.raiseAlarm p).tickCount = c.tickCount ∧
      (∀ q, q ≠ p → (c.raiseAlarm p).alarmTick q = c.alarmTick q) ∧
      ∀ k, ((c.raiseAlarm p).withKernel k).smp = (c.withKernel k).smp := by
  rw [raiseAlarm]
  split
  · rw [signalRaise]
    split
    case isTrue | isFalse =>
      exact ⟨rfl, fun q hq => Function.update_of_ne hq .., fun _ => rfl⟩
  · exact ⟨rfl, fun _ _ => rfl, fun _ => rfl⟩

/-- With the clock's answers, the scheduler's tick is the clock's. -/
theorem irqSchedulerTick_smp (c : Clock) (hnodup : c.kernel.table.Nodup) (dormant : Bool) :
    (c.irqSchedulerTick dormant).smp = c.smp.irqSchedulerTick (c.meets dormant) := by
  generalize hwoken : c.kernel.table.foldl wakeSleeper c = woken
  have hwake : woken.kernel = c.kernel.table.foldl (Smp.wakeSleeper (c.meets dormant)) c.kernel := by
    rw [← hwoken]
    refine foldl_refines kernel (R := fun d q => (c.meets dormant).slept q = (d.meets false).slept q)
      (fun d q hq => d.wakeSleeper_kernel q hq) (fun d p q hne hq => ?_) hnodup fun _ _ => rfl
    obtain ⟨hcount, _, hothers, _⟩ := d.wakeSleeper_others p
    rw [hq]
    simp only [meets, hcount, hothers q hne]
  have hcount : woken.tickCount = c.tickCount :=
    hwoken ▸ foldl_view tickCount (fun d p => (d.wakeSleeper_others p).1) c _
  have halarm : woken.alarmTick = c.alarmTick :=
    hwoken ▸ foldl_view alarmTick (fun d p => (d.wakeSleeper_others p).2.1) c _
  have hraised : (c.kernel.table.foldl raiseAlarm woken).kernel =
      Smp.timers (c.meets dormant) c.kernel := by
    rw [Smp.timers, ← hwake]
    refine foldl_refines kernel (R := fun d q => (c.meets dormant).alarm q = (d.meets false).alarm q)
      (fun d q hq => d.raiseAlarm_kernel q hq) (fun d p q hne hq => ?_) hnodup fun q _ => ?_
    · obtain ⟨hcount, hothers, _⟩ := d.raiseAlarm_others p
      rw [hq]
      simp only [meets, hcount, hothers q hne]
    · simp only [meets, hcount, halarm]
  have hsmp (k : Kernel) :
      ((c.kernel.table.foldl raiseAlarm woken).withKernel k).smp = (c.withKernel k).smp := by
    have hkeep := foldl_view (fun d : Clock => (d.withKernel k).smp)
      (fun d p => (d.raiseAlarm_others p).2.2 k) woken c.kernel.table
    refine hkeep.trans ?_
    rw [← hwoken]
    exact foldl_view (fun d : Clock => (d.withKernel k).smp)
      (fun d p => (d.wakeSleeper_others p).2.2.2 k) c c.kernel.table
  have htimers : (c.kernel.table.foldl raiseAlarm woken).smp =
      (c.withKernel (Smp.timers (c.meets dormant) c.kernel)).smp :=
    hraised ▸ hsmp (c.kernel.table.foldl raiseAlarm woken).kernel
  simp only [irqSchedulerTick, hwoken, htimers]
  rfl

/-! ### The tick that wakes -/

theorem state_wakeSleeper (c : Clock) (p q : Nat) :
    ((c.wakeSleeper q).state p = c.state p ∧ (q ≠ p → (c.wakeSleeper q).wakeTick p = c.wakeTick p)) ∨
      (c.wakeSleeper q).state p = .run := by
  rw [wakeSleeper]
  split
  · simp only [state, kernel, withKernel, setWakeTick]
    rcases eq_or_ne p q with rfl | hne
    · rw [modify_procs_self]
      exact .inr rfl
    rw [modify_procs_ne _ _ _ hne, Function.update_of_ne hne]
    exact .inl ⟨rfl, fun _ => rfl⟩
  · exact .inl ⟨rfl, fun _ => rfl⟩

theorem run_raiseAlarm {p : Nat} (h : c.state p = .run) (q : Nat) :
    (c.raiseAlarm q).state p = .run := by
  rw [raiseAlarm]
  split
  · have hlets : Lets (fun _ _ => False) c.kernel (c.kernel.signalRaise q Smp.sigalrm) :=
      c.kernel.lets_signalRaise q Smp.sigalrm
    have hrun : ((c.kernel.signalRaise q Smp.sigalrm).procs p).state = .run := by
      rcases hlets p with he | hrun | hno
      · exact he.trans h
      · exact hrun
      · exact hno.elim
    rw [signalRaise]
    split
    · exact hrun
    · exact hrun
  · exact h

/-- A sleeper whose tick has come runs after `irq_scheduler_tick`. -/
theorem run_irqSchedulerTick {p : Nat} (hp : p ≠ 0) (hmem : p ∈ c.kernel.table)
    (hb : c.state p = .blocked) (hset : c.wakeTick p ≠ 0)
    (hdue : reached c.tickCount (c.wakeTick p) = true) (dormant : Bool) :
    (c.irqSchedulerTick dormant).state p = .run := by
  have hkeeps (d : Clock) (q : Nat) (hd : d.state p = .run) : (d.wakeSleeper q).state p = .run := by
    rcases d.state_wakeSleeper p q with ⟨he, _⟩ | hrun
    · exact he.trans hd
    · exact hrun
  have hturn (d : Clock) (hd : d.state p = .run ∨
      d.state p = .blocked ∧ d.wakeTick p = c.wakeTick p ∧ d.tickCount = c.tickCount) :
      (d.wakeSleeper p).state p = .run := by
    rcases hd with hrun | ⟨hb, hw, ht⟩
    · exact hkeeps d p hrun
    rw [wakeSleeper, if_pos ⟨hp, hb, hw ▸ hset, by rw [hw, ht]; exact hdue⟩]
    simp only [state, kernel, withKernel, setWakeTick, modify_procs_self]
  have hwoken : (c.kernel.table.foldl wakeSleeper c).state p = .run := by
    refine foldl_reaches (P := fun d : Clock => d.state p = .run ∨
      d.state p = .blocked ∧ d.wakeTick p = c.wakeTick p ∧ d.tickCount = c.tickCount)
      (Q := fun d : Clock => d.state p = .run) (fun d q hd => ?_) hkeeps hturn hmem (.inr ⟨hb, rfl, rfl⟩)
    rcases eq_or_ne q p with rfl | hne
    · exact .inl (hturn d hd)
    rcases hd with hrun | ⟨hb, hw, ht⟩
    · exact .inl (hkeeps d q hrun)
    rcases d.state_wakeSleeper p q with ⟨he, hwake⟩ | hrun
    · exact .inr ⟨he.trans hb, (hwake hne).trans hw, (d.quiet_wakeSleeper q).count.trans ht⟩
    · exact .inl hrun
  have hraised := foldl_keeps (P := fun d : Clock => d.state p = .run)
    (fun _ q hd => run_raiseAlarm hd q) c.kernel.table hwoken
  simp only [irqSchedulerTick, state, kernel, schedule_procs]
  exact hraised

theorem Timed.woken (h : c.Timed) {p : Nat} {s : Sleep} (hp : p ≠ 0) (hmem : p ∈ c.kernel.table)
    (hs : c.sleeping p = some s) (hb : c.state p = .blocked) (hset : s.deadline ≠ 0)
    (hpassed : s.started + s.request.millis.toNat ≤ c.now)
    (hrecent : c.now < s.started + s.request.millis.toNat + 2 ^ 31) (dormant : Bool) :
    (c.irqSchedulerTick dormant).state p = .run := by
  have hwake := h.parked p s hp hs hb
  have hsince := h.sleeps p s hs
  refine run_irqSchedulerTick hp hmem hb (hwake ▸ hset) ?_ dormant
  have hnow : c.tickCount = BitVec.ofNat 32 (s.started + (c.now - s.started)) := by
    rw [h.count, Nat.add_sub_cancel' hsince.started]
  have hdeadline : s.deadline = BitVec.ofNat 32 (s.started + s.request.millis.toNat) := by
    rw [hsince.deadline, BitVec.ofNat_add, BitVec.ofNat_toNat, BitVec.setWidth_eq]
  rw [hwake, hnow, hdeadline]
  exact reached_of_le (by omega) (by omega)

/-- Whatever happens, from whatever value of the counter: no sleep of at most half a turn of the
counter returns 0 early, no alarm of at most half a turn comes early, and a sleeper is woken by
the first `irq_scheduler_tick` after its deadline, unless the deadline is the 0 that means none
or has passed half a turn ago. -/
theorem timers_on_time (smp : Smp) (now : Nat) (events : List Event) :
    let c := run Clock.step (start smp now) events
    (∀ r ∈ c.returns, r.result = 0 → r.request.Fits → r.OnTime) ∧
      (∀ a ∈ c.posts, a.1.Fits → a.1.OnTime a.2) ∧
      ∀ p s dormant, p ≠ 0 → p ∈ c.kernel.table → c.sleeping p = some s → c.state p = .blocked →
        s.deadline ≠ 0 → s.started + s.request.millis.toNat ≤ c.now →
        c.now < s.started + s.request.millis.toNat + 2 ^ 31 →
        (c.irqSchedulerTick dormant).state p = .run := by
  intro c
  have h : c.Timed := run_keeps (fun _ e hc => hc.step e) _ events (timed_start smp now)
  exact ⟨h.returns, h.posts, fun p s dormant hp hmem hs hb hset hpassed hrecent =>
    h.woken hp hmem hs hb hset hpassed hrecent dormant⟩

/-- The first task makes a request at tick `now`, and `ticks` more ticks follow. -/
def slumber (now : Nat) (request : Request) (ticks : Nat) : Clock :=
  run Clock.step (start (Smp.boot 16 1) now)
    (.sleep 16 request :: List.replicate ticks (.irq true false))

/-- Three milliseconds across the wrap of the counter. -/
theorem timers_on_time_wrap : (slumber (2 ^ 32 - 2) (.sleep 3) 2).state 16 = .blocked ∧
      ((slumber (2 ^ 32 - 2) (.sleep 3) 3).irqSchedulerTick false).state 16 = .run ∧
      Return.OnTime ⟨.sleep 3, 2 ^ 32 - 2, 2 ^ 32 + 1, 0⟩ := by
  refine ⟨by decide +kernel, by decide +kernel, ?_⟩
  refine (timers_on_time (Smp.boot 16 1) (2 ^ 32 - 2)
    (.sleep 16 (.sleep 3) :: List.replicate 3 (.irq true false) ++ [.resume 16])).1 _ ?_ rfl ?_
  · decide +kernel
  · unfold Request.Fits
    decide

/-- A sleep of more than half a turn returns at once, in either call; so does an alarm, at the
next tick; and a sleeper whose deadline is 0 is not woken. -/
theorem timers_off_time :
    (slumber 0 (.sleep 0x80000001) 0).returns = [⟨.sleep 0x80000001, 0, 0, 0⟩] ∧
      ¬ Return.OnTime ⟨.sleep 0x80000001, 0, 0, 0⟩ ∧
      (slumber 0 (.nanosleep 4294968 0) 0).returns = [⟨.nanosleep 4294968 0, 0, 0, 0⟩] ∧
      ¬ Return.OnTime ⟨.nanosleep 4294968 0, 0, 0, 0⟩ ∧
      (run Clock.step (start (Smp.boot 16 1) 0) [.alarm 16 2147484, .irq true false]).posts =
        [(⟨2147484, 0⟩, 1)] ∧
      ¬ Alarm.OnTime ⟨2147484, 0⟩ 1 ∧
      (slumber (2 ^ 32 - 3) (.sleep 3) 3).state 16 = .blocked ∧
      ((slumber (2 ^ 32 - 3) (.sleep 3) 3).irqSchedulerTick false).state 16 = .blocked := by
  refine ⟨?_, ?_, ?_, ?_, ?_, ?_, ?_, ?_⟩
  case refine_2 | refine_4 => unfold Return.OnTime; decide
  case refine_6 => unfold Alarm.OnTime; decide
  all_goals decide +kernel

theorem irqSchedulerTick_smp_slumber : ((slumber 0 (.sleep 3) 2).irqSchedulerTick false).smp =
    (slumber 0 (.sleep 3) 2).smp.irqSchedulerTick ((slumber 0 (.sleep 3) 2).meets false) :=
  irqSchedulerTick_smp _ (by decide +kernel) false

end Clock
end Nyx.Timers
