import Nyx.Descriptors.Touches

/-! Readers asleep in a pipe.

A pipe remembers one reader to wake. Any number of tasks read pipes, sleep in `pipe_read` and
are scheduled again, among all other calls, signals, deaths and removals. As long as a reader
goes to sleep in a pipe that no other task is reading, and none is destroyed in its sleep, no
wakeup is lost (`no_lost_wakeup`); otherwise it is (`second_reader_sleeps_on`). -/
namespace Nyx.Descriptors
open Nyx.Process Nyx.Process.Kernel Nyx.Lib Function

/-- The machine, with the pipe and the number of bytes of the `pipe_read` each task is in. -/
structure Readers where
  io : Io
  inside : Nat → Option (Fin maxPipes × Nat)

/-- A system call, or a turn of the loop of `pipe_read` by a task that sleeps no more. -/
inductive ReadEvent where
  | call (sys : Sys)
  | resume (self : Nat)

namespace Readers
variable (r : Readers)

def mayCall (sys : Sys) : Prop := ∀ p ∈ sys.caller, p ∈ r.io.kernel.table ∧ r.inside p = none

instance (sys : Sys) : Decidable (r.mayCall sys) := by
  unfold mayCall
  cases sys.caller with
  | none => exact isTrue fun _ h => nomatch h
  | some p =>
    refine decidable_of_iff (p ∈ r.io.kernel.table ∧ r.inside p = none) ?_
    exact ⟨fun h q hq => Option.mem_some.mp hq ▸ h, fun h => h p rfl⟩

def call (sys : Sys) : Readers :=
  match r.io.parks sys with
  | none => {r with io := sys.perform r.io}
  | some (self, i, n) => ⟨sys.perform r.io, Function.update r.inside self (some (i, n))⟩

/-- The pipe was looked up when the call began. -/
def resume (self : Nat) : Readers :=
  match r.inside self with
  | none => r
  | some (i, n) =>
    let pass := (r.io.pipes i).pass n self
    let io := {r.io with pipes := Function.update r.io.pipes i pass.1}
    if pass.2 = .parked then
      {r with io := {io with kernel := io.kernel.modify self fun t => {t with state := .blocked}}}
    else ⟨io, Function.update r.inside self none⟩

def forget : Readers :=
  {r with inside := fun p => if p ∈ r.io.kernel.table then r.inside p else none}

def step (r : Readers) : ReadEvent → Readers
  | .call sys => if r.mayCall sys then (r.call sys).forget else r
  | .resume self => if (r.io.kernel.procs self).state = .run then r.resume self else r

def boot (init : Nat) : Readers := ⟨.boot init, fun _ => none⟩

def after (init : Nat) (events : List ReadEvent) : Readers := run step (boot init) events

/-- No reader sleeps on a pipe it could read, and the pipe remembers only readers. -/
structure Woken (r : Readers) : Prop where
  awake : ∀ i, 0 < (r.io.pipes i).count ∨ (r.io.pipes i).writeRefs = 0 →
    ∀ p n, r.inside p = some (i, n) → (r.io.kernel.procs p).state ≠ .blocked
  waiter : ∀ i, (r.io.pipes i).readerWaiter = 0 ∨ (r.io.pipes i).readerWaiter ∈ r.io.kernel.table ∧
      ∃ n, r.inside (r.io.pipes i).readerWaiter = some (i, n)

def Read (i : Fin maxPipes) : Prop := ∃ q ∈ r.io.kernel.table, (r.inside q).map Prod.fst = some i

instance (i : Fin maxPipes) : Decidable (r.Read i) := inferInstanceAs (Decidable (∃ _ ∈ _, _))

/-- Does the call destroy a task inside `pipe_read`? -/
def Destroys : Sys → Prop
  | .process (.destroyProcess pid) => ∃ q ∈ r.io.kernel.table,
    (r.inside q).isSome = true ∧ (r.io.kernel.procs q).pid.setWidth 64 = pid
  | _ => False

instance (sys : Sys) : Decidable (r.Destroys sys) := by
  unfold Destroys
  split <;> infer_instance

/-- A reader goes to sleep in a pipe no other task is reading, and none is destroyed. -/
def Lone (r : Readers) : ReadEvent → Prop
  | .call sys => (∀ x ∈ r.io.parks sys, ¬ r.Read x.2.1) ∧ ¬ r.Destroys sys
  | .resume _ => True

instance (e : ReadEvent) : Decidable (r.Lone e) := by
  unfold Lone
  split
  · infer_instance
  · infer_instance

/-! ### What a lawful run keeps -/

structure Kept (r : Readers) : Prop where
  owned : r.io.kernel.blocks.Owned
  idle : ∀ i, (r.io.pipes i).Idle
  alive : Io.Alive (r.inside · ≠ none) r.io.kernel
  null : r.inside 0 = none
  alone : ∀ {p q i m n}, r.inside p = some (i, m) → r.inside q = some (i, n) → p = q
  asleep : ∀ {p i n}, r.inside p = some (i, n) → (r.io.kernel.procs p).state = .blocked →
    (r.io.pipes i).readerWaiter = p
  waiter : ∀ i, (r.io.pipes i).readerWaiter ≠ 0 →
    ∃ n, r.inside (r.io.pipes i).readerWaiter = some (i, n)

section
variable {r : Readers}

theorem Kept.woken (h : r.Kept) : r.Woken where
  awake i hi p n hp hblocked := by
    have hnone := (h.idle i).no_waiter hi
    rw [h.asleep hp hblocked] at hnone
    rw [hnone, h.null] at hp
    cases hp
  waiter i := by
    rcases eq_or_ne (r.io.pipes i).readerWaiter 0 with h0 | hw
    · exact .inl h0
    obtain ⟨n, hn⟩ := h.waiter i hw
    have hin : r.inside (r.io.pipes i).readerWaiter ≠ none := hn ▸ nofun
    exact .inr ⟨(h.alive _ hin).1, n, hn⟩

theorem kept_boot (init : Nat) : (boot init).Kept where
  owned := owned_boot init
  idle _ := ⟨fun hw => absurd rfl hw, fun _ => rfl⟩
  alive _ hp := absurd rfl hp
  null := rfl
  alone hp := nomatch hp
  asleep hp := nomatch hp
  waiter _ hw := absurd rfl hw

section
variable (h : r.Kept)
include h

theorem Kept.nonnull {p : Nat} {x : Fin maxPipes × Nat} (hp : r.inside p = some x) : p ≠ 0 := by
  intro h0
  rw [h0, h.null] at hp
  cases hp

variable {i : Fin maxPipes} {s : Io}

theorem Kept.read {p m : Nat} (hp : r.inside p = some (i, m)) : r.Read i := by
  have hin : r.inside p ≠ none := hp ▸ nofun
  exact ⟨p, (h.alive p hin).1, hp ▸ rfl⟩

theorem Kept.of_io (hpipes : s.pipes = r.io.pipes) (hkernel : s.kernel = r.io.kernel) :
    Kept ⟨s, r.inside⟩ where
  owned := hkernel ▸ h.owned
  idle := hpipes ▸ h.idle
  alive := hkernel ▸ h.alive
  null := h.null
  alone := h.alone
  asleep hp hblocked := hpipes ▸ h.asleep hp (hkernel ▸ hblocked)
  waiter := hpipes ▸ h.waiter

theorem Kept.touch (ht : Io.Touch (r.inside · ≠ none) r.io s) : Kept ⟨s, r.inside⟩ := by
  have halive : Io.Alive (r.inside · ≠ none) s.kernel := h.alive.touches (.single ht)
  have howned : s.kernel.blocks.Owned := ht.spares.owned h.owned
  cases ht with
  | kernel hpipes hspares =>
    refine ⟨howned, ?_, halive, h.null, h.alone, fun {p i n} hp hblocked => ?_, ?_⟩
    · rw [hpipes]
      exact h.idle
    · rw [hpipes]
      have hin : r.inside p ≠ none := hp ▸ nofun
      rcases (hspares.tasks p hin (h.alive p hin).1).2 with he | hrun
      · exact h.asleep hp (he ▸ hblocked)
      · exact absurd (hrun.symm.trans hblocked) nofun
    · rw [hpipes]
      exact h.waiter
  | pipes woken hturned hkernel =>
    have hstate (p : Nat) (hp : p ≠ 0) (hblocked : (s.kernel.procs p).state = .blocked) :
        p ≠ woken ∧ (r.io.kernel.procs p).state = .blocked := by
      rw [hkernel, Io.wake] at hblocked
      split at hblocked
      case isTrue h0 => exact ⟨fun he => hp (he.trans h0), hblocked⟩
      case isFalse =>
        rcases eq_or_ne p woken with rfl | hne
        · rw [modify_procs_self] at hblocked
          cases hblocked
        rw [modify_procs_ne _ _ _ hne] at hblocked
        exact ⟨hne, hblocked⟩
    rcases hturned with ⟨hpipes, _⟩ | ⟨i, q, hpipes, hturns⟩
    · refine ⟨howned, ?_, halive, h.null, h.alone, fun {p i n} hp hblocked => ?_, ?_⟩
      · rw [hpipes]
        exact h.idle
      · rw [hpipes]
        exact h.asleep hp (hstate p (h.nonnull hp) hblocked).2
      · rw [hpipes]
        exact h.waiter
    · obtain ⟨hidle, hwaiter⟩ := hturns (h.idle i)
      refine ⟨howned, fun j => ?_, halive, h.null, h.alone, fun {p j n} hp hblocked => ?_,
        fun j hw => ?_⟩
      · rw [hpipes, update_apply]
        split
        · exact hidle
        · exact h.idle j
      · obtain ⟨hne, hbefore⟩ := hstate p (h.nonnull hp) hblocked
        have hslept := h.asleep hp hbefore
        rw [hpipes, update_apply]
        split
        case isTrue he =>
          rw [he] at hslept
          rcases hwaiter with ⟨hsame, _⟩ | ⟨_, hwoken⟩
          · exact hsame.trans hslept
          · exact absurd (hslept.symm.trans hwoken.symm) hne
        case isFalse => exact hslept
      · dsimp only at hw ⊢
        rw [hpipes, update_apply] at hw ⊢
        split at hw
        case isTrue he =>
          rw [if_pos he, he]
          rcases hwaiter with ⟨hsame, _⟩ | ⟨hnone, _⟩
          · rw [hsame] at hw ⊢
            exact h.waiter i hw
          · exact absurd hnone hw
        case isFalse he =>
          rw [if_neg he]
          exact h.waiter j hw

theorem Kept.touches (ht : Io.Touches (r.inside · ≠ none) r.io s) : Kept ⟨s, r.inside⟩ := by
  induction ht with
  | refl => exact h
  | tail _ hlast ih => exact ih.touch hlast

/-- A task goes to sleep in a pipe that no other task is reading. -/
theorem Kept.sleeps {self : Nat} (hself : self ∈ r.io.kernel.table) (h0 : self ≠ 0)
    (hcount : (r.io.pipes i).count = 0) (hwrite : (r.io.pipes i).writeRefs ≠ 0)
    (hlone : ∀ q m, r.inside q = some (i, m) → q = self)
    (hhere : ∀ j m, r.inside self = some (j, m) → j = i) (n : Nat) :
    Kept ⟨{r.io with
      pipes := update r.io.pipes i {r.io.pipes i with readerWaiter := self}
      kernel := r.io.kernel.modify self fun t => {t with state := .blocked}},
      update r.inside self (some (i, n))⟩ := by
  have hin {p j m} (hp : update r.inside self (some (i, n)) p = some (j, m)) :
      p = self ∧ j = i ∨ p ≠ self ∧ j ≠ i ∧ r.inside p = some (j, m) := by
    rw [update_apply] at hp
    split at hp
    case isTrue he =>
      injection hp with hp
      exact .inl ⟨he, (congrArg Prod.fst hp).symm⟩
    case isFalse hne => exact .inr ⟨hne, fun hji => hne (hlone p m (hji ▸ hp)), hp⟩
  constructor
  case owned =>
    have hblocks : (r.io.kernel.modify self fun t => {t with state := .blocked}).blocks =
        r.io.kernel.blocks := r.io.kernel.blocks_modify self _ (fun _ => rfl) fun _ => rfl
    exact hblocks ▸ h.owned
  case idle =>
    intro j
    dsimp only
    rw [update_apply]
    split
    · exact ⟨fun _ => ⟨hcount, Nat.pos_of_ne_zero hwrite⟩, (h.idle i).free⟩
    · exact h.idle j
  case alive =>
    intro p hp
    dsimp only at hp ⊢
    rcases eq_or_ne p self with rfl | hne
    · rw [modify_procs_self]
      exact ⟨hself, nofun⟩
    rw [update_of_ne hne] at hp
    rw [modify_procs_ne _ _ _ hne]
    exact h.alive p hp
  case null => exact (update_of_ne h0.symm ..).trans h.null
  case alone =>
    intro p q j m m' hp hq
    rcases hin hp with ⟨rfl, rfl⟩ | ⟨hpne, hji, hp⟩
    · rcases hin hq with ⟨rfl, _⟩ | ⟨_, hji, _⟩
      · rfl
      · exact absurd rfl hji
    · rcases hin hq with ⟨_, he⟩ | ⟨_, _, hq⟩
      · exact absurd he hji
      · exact h.alone hp hq
  case asleep =>
    intro p j m hp hblocked
    dsimp only at hblocked ⊢
    rcases hin hp with ⟨rfl, rfl⟩ | ⟨hpne, hji, hp⟩
    · rw [update_self]
    rw [modify_procs_ne _ _ _ hpne] at hblocked
    rw [update_of_ne hji]
    exact h.asleep hp hblocked
  case waiter =>
    intro j hw
    dsimp only at hw ⊢
    rcases eq_or_ne j i with rfl | hji
    · rw [update_self]
      exact ⟨n, update_self ..⟩
    rw [update_of_ne hji] at hw ⊢
    obtain ⟨m, hm⟩ := h.waiter j hw
    have hne : (r.io.pipes j).readerWaiter ≠ self := fun he => hji (hhere j m (he ▸ hm))
    exact ⟨m, (update_of_ne hne ..).trans hm⟩

/-- A task that no pipe remembers leaves `pipe_read`. -/
theorem Kept.leaves {self : Nat}
    (hw : ∀ i, (r.io.pipes i).readerWaiter ≠ 0 → (r.io.pipes i).readerWaiter ≠ self) :
    Kept ⟨r.io, update r.inside self none⟩ := by
  have hin {p x} (hp : update r.inside self none p = some x) : r.inside p = some x := by
    rw [update_apply] at hp
    split at hp
    · cases hp
    · exact hp
  constructor
  case owned => exact h.owned
  case idle => exact h.idle
  case alive =>
    intro p hp
    obtain ⟨x, hx⟩ := Option.ne_none_iff_exists'.mp hp
    have hbefore : r.inside p ≠ none := hin hx ▸ nofun
    exact h.alive p hbefore
  case null =>
    dsimp only
    rw [update_apply]
    split
    · rfl
    · exact h.null
  case alone => exact fun hp hq => h.alone (hin hp) (hin hq)
  case asleep => exact fun hp => h.asleep (hin hp)
  case waiter =>
    intro i hi
    obtain ⟨m, hm⟩ := h.waiter i hi
    exact ⟨m, (update_of_ne (hw i hi) ..).trans hm⟩

theorem Kept.forget_eq : r.forget = r := by
  have hinside : (fun p => if p ∈ r.io.kernel.table then r.inside p else none) = r.inside := by
    funext p
    split
    · rfl
    case isFalse hout =>
      by_contra hne
      exact hout (h.alive p (Ne.symm hne)).1
  rw [forget, hinside]

end

/-! ### Steps -/

theorem Kept.resume (h : r.Kept) (self : Nat) : (r.resume self).Kept := by
  simp only [Readers.resume]
  split
  · exact h
  case h_2 i n hin =>
    have h0 := h.nonnull hin
    have halive : r.inside self ≠ none := hin ▸ nofun
    split
    case isTrue hpark =>
      obtain ⟨hcount, hwrite, _, hpass⟩ := Pipe.pass_parked hpark
      rw [hpass]
      have hslept := h.sleeps (h.alive self halive).1 h0 hcount hwrite (fun q m hq => h.alone hq hin)
        (fun j m hj => congrArg Prod.fst (Option.some.inj (hj.symm.trans hin))) n
      have hsame : update r.inside self (some (i, n)) = r.inside :=
        Function.update_eq_self_iff.mpr hin.symm
      rw [hsame] at hslept
      exact hslept
    case isFalse hdone =>
      have hturned : r.io.pipes.Turned (update r.io.pipes i ((r.io.pipes i).pass n self).1) 0 :=
        .inr ⟨i, _, rfl, fun hidle => Pipe.turns_pass hidle hdone⟩
      generalize hs : ({r.io with pipes := _} : Io) = s
      have hkept : Kept ⟨s, r.inside⟩ := h.touch (hs ▸ .pipes 0 hturned rfl)
      refine hkept.leaves fun j hw he => ?_
      obtain ⟨m, hm⟩ := hkept.waiter j hw
      have hji : j = i := by
        rw [he] at hm
        exact congrArg Prod.fst (Option.some.inj (hm.symm.trans hin))
      have hgone := Pipe.pass_leaves (h.idle i) h0 hdone
      have hpipe : s.pipes i = ((r.io.pipes i).pass n self).1 := by
        rw [← hs]
        exact update_self ..
      refine hw ?_
      dsimp only
      rw [hji, hpipe]
      exact hgone

theorem parks_spec {s : Io} {sys : Sys} {self n : Nat} {i : Fin maxPipes}
    (hpark : s.parks sys = some (self, i, n)) :
    sys.caller = some self ∧ ((s.pipes i).pass n self).2 = .parked ∧
      (sys.perform s).pipes = update s.pipes i ((s.pipes i).pass n self).1 ∧
      (sys.perform s).kernel = s.kernel.modify self fun t => {t with state := .blocked} := by
  cases sys with
  | read self' fd count env =>
    simp only [Io.parks] at hpark
    split at hpark
    · cases hpark
    case h_2 j h hl =>
      split at hpark
      case isFalse => cases hpark
      case isTrue hread =>
        obtain ⟨hp, hw, hparked⟩ := hread
        obtain ⟨i', hi, he⟩ := Option.map_eq_some_iff.mp hpark
        injection he with hs he
        injection he with hi' hn
        subst hs hi' hn
        -- The read found the pipe and made one pass.
        have hresult : s.pipes.pipeRead (ufdPipeId h) count self' =
            (update s.pipes i' ((s.pipes i').pass count self').1,
              ((s.pipes i').pass count self').2) := by
          simp only [Pipes.pipeRead, hi] at hparked ⊢
          split at hparked
          · cases hparked
          case isFalse hn => rw [if_neg hn]
        rw [hresult] at hparked
        have hperform : Sys.perform s (.read self' fd count env) =
            { s.log (.pipe .read h) with
              pipes := update s.pipes i' ((s.pipes i').pass count self').1
              kernel := s.kernel.modify self' fun t => {t with state := .blocked} } := by
          have hparked' : ((s.pipes i').pass count self').2 = .parked := hparked
          simp only [Sys.perform, Io.sysRead, hl, if_pos hp, if_neg hw, hresult, hparked']
        rw [hperform]
        exact ⟨rfl, hparked, rfl, rfl⟩
  | _ => cases hpark

theorem Kept.call (h : r.Kept) {sys : Sys} (hmay : r.mayCall sys) (hlone : r.Lone (.call sys)) :
    (r.call sys).Kept := by
  simp only [Readers.call]
  split
  case h_1 hnone =>
    have hcaller : ∀ p ∈ sys.caller, p ∈ r.io.kernel.table ∧ ¬ r.inside p ≠ none :=
      fun p hp => ⟨(hmay p hp).1, fun hin => hin (hmay p hp).2⟩
    refine h.touches (Io.touches_perform h.owned h.alive hcaller (fun pid he p hp hpid => ?_) hnone)
    subst he
    exact hlone.2 ⟨p, (h.alive p hp).1, Option.isSome_iff_ne_none.mpr hp, hpid⟩
  case h_2 self i n hpark =>
    obtain ⟨hcaller, hparked, hpipes, hkernel⟩ := parks_spec hpark
    obtain ⟨hcount, hwrite, h0, hpass⟩ := Pipe.pass_parked hparked
    obtain ⟨hself, hout⟩ := hmay self hcaller
    rw [hpass] at hpipes
    have hslept := h.sleeps hself h0 hcount hwrite
      (fun q m hq => absurd (h.read hq) (hlone.1 (self, i, n) hpark))
      (fun j m hj => absurd (hout.symm.trans hj) nofun) n
    exact hslept.of_io hpipes hkernel

theorem Kept.step (h : r.Kept) (e : ReadEvent) (hlone : r.Lone e) : (r.step e).Kept := by
  cases e with
  | call sys =>
    simp only [Readers.step]
    split
    case isTrue hmay =>
      have hcalled := h.call hmay hlone
      rw [hcalled.forget_eq]
      exact hcalled
    case isFalse => exact h
  | resume self =>
    simp only [Readers.step]
    split
    · exact h.resume self
    · exact h

end
end Readers

/-- In every run in which a reader goes to sleep only in a pipe that no other task is reading,
and no task is destroyed inside `pipe_read`, no reader is left asleep on a pipe that has data
or no writers, and a pipe remembers a task of the table that reads it, or none. -/
theorem no_lost_wakeup (init : Nat) (events : List ReadEvent)
    (hlone : Admissible Readers.step Readers.Lone (Readers.boot init) events) :
    (Readers.after init events).Woken :=
  (run_invariant (P := Readers.Kept) (fun _ e h hl => h.step e hl) _ events
    (Readers.kept_boot init) hlone).woken

/-- A process (at 48) opens a pipe, in descriptors 3 and 4, and forks a child (at 144). -/
def piped : List ReadEvent :=
  [.call (.process (.load (.loaded 32 0x400000#64 0x500000#64) 0x7FF000#64 48 64)),
    .call (.pipe 48 .good), .call (.process (.fork 48 128 144 160 fun _ => 0))]

/-- The child sleeps in the pipe, is remembered, and is woken by a byte. -/
theorem no_lost_wakeup_written :
    (Readers.after 16 (piped ++ [.call (.read 144 3#32 8 .good)])).Woken ∧
      ((Readers.after 16 (piped ++ [.call (.read 144 3#32 8 .good)])).io.pipes 0).readerWaiter =
        144 ∧
      (Readers.after 16 (piped ++ [.call (.read 144 3#32 8 .good),
        .call (.write 48 4#32 [7#8] .good)])).Woken ∧
      ((Readers.after 16 (piped ++ [.call (.read 144 3#32 8 .good),
        .call (.write 48 4#32 [7#8] .good)])).io.kernel.procs 144).state = .run :=
  ⟨no_lost_wakeup 16 _ (by decide +kernel), by decide +kernel,
    no_lost_wakeup 16 _ (by decide +kernel), by decide +kernel⟩

def twoReaders : List ReadEvent :=
  piped ++ [.call (.process (.fork 48 224 240 256 fun _ => 0)),
    .call (.read 144 3#32 8 .good), .call (.read 240 3#32 8 .good),
    .call (.write 48 4#32 [7#8] .good)]

/-- The child is destroyed in its sleep, and its parent collects it. -/
def destroyedReader : List ReadEvent :=
  piped ++ [.call (.read 144 3#32 8 .good), .call (.process (.destroyProcess 3#64)),
    .call (.process (.waitpid 48 3#32 0#32))]

/-- Of two readers only the later is woken: the first sleeps on while the pipe has data. And
a pipe remembers a reader that was destroyed and freed. -/
theorem second_reader_sleeps_on : (((Readers.after 16 twoReaders).io.pipes 0).count = 1 ∧
        (Readers.after 16 twoReaders).inside 144 = some (0, 8) ∧
        ((Readers.after 16 twoReaders).io.kernel.procs 144).state = .blocked ∧
        ¬ (Readers.after 16 twoReaders).Woken) ∧
      ((Readers.after 16 destroyedReader).io.pipes 0).readerWaiter = 144 ∧
        144 ∉ (Readers.after 16 destroyedReader).io.kernel.table ∧
        ¬ (Readers.after 16 destroyedReader).Woken := by
  have hdata : ((Readers.after 16 twoReaders).io.pipes 0).count = 1 := by decide +kernel
  have hinside : (Readers.after 16 twoReaders).inside 144 = some (0, 8) := by decide +kernel
  have hasleep : ((Readers.after 16 twoReaders).io.kernel.procs 144).state = .blocked := by
    decide +kernel
  have hwaiter : ((Readers.after 16 destroyedReader).io.pipes 0).readerWaiter = 144 := by
    decide +kernel
  have hgone : 144 ∉ (Readers.after 16 destroyedReader).io.kernel.table := by decide +kernel
  refine ⟨⟨hdata, hinside, hasleep, fun h => ?_⟩, hwaiter, hgone, fun h => ?_⟩
  · exact h.awake 0 (.inl (hdata ▸ Nat.one_pos)) 144 8 hinside hasleep
  have hremembered := h.waiter 0
  rw [hwaiter] at hremembered
  rcases hremembered with h0 | hin
  · cases h0
  · exact hgone hin.1

end Nyx.Descriptors
