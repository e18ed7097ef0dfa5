import Nyx.Descriptors.Lives
import Nyx.Process.States

/-! Dead processes and their pipe ends.

A process becomes a zombie in four places: `SYS_EXIT` and the end of a fault from ring 3
close its descriptors first, the default action of a signal and `destroy_process` do not. A
pipe whose last writers are the descriptors of a dead process reads as ended only if they
were closed. -/
namespace Nyx.Descriptors
open Nyx.Process Nyx.Process.Kernel

/-! ### Closing the ends of a pipe -/

/-- The handle is an end of the pipe `id`. -/
def isEnd (id : Fin maxPipes) (isWrite : Bool) (h : BitVec 32) : Bool :=
  isPipe h && ufdPipeId h == BitVec.ofNat 32 id.val && ufdPipeIsWrite h == isWrite

def ends (t : Proc) (id : Fin maxPipes) (isWrite : Bool) : Nat :=
  (handles t).countP (isEnd id isWrite)

/-- The pipe `p` with these many descriptors fewer, on each end. -/
structure Lost (reads writes : Nat) (p p' : Pipe) : Prop where
  used : p'.used = true
  readRefs : p'.readRefs = p.readRefs - reads
  writeRefs : p'.writeRefs = p.writeRefs - writes
  count : p'.count = p.count

theorem lost_dropRef {p : Pipe} (hused : p.used = true) (isWrite : Bool)
    (hleft : (if isWrite then 0 else 1) < p.readRefs) :
    Lost (if isWrite then 0 else 1) (if isWrite then 1 else 0) p (p.dropRef isWrite).1 := by
  cases isWrite with
  | true =>
    have hr : p.readRefs ≠ 0 := Nat.ne_of_gt hleft
    simp only [Pipe.dropRef, Pipe.settle, if_true, hr, false_and, if_false]
    split
    case isTrue hz => exact ⟨hused, rfl, hz.symm, rfl⟩
    case isFalse => exact ⟨hused, rfl, rfl, rfl⟩
  | false =>
    have hr : p.readRefs - 1 ≠ 0 := Nat.sub_ne_zero_of_lt hleft
    simp only [Pipe.dropRef, Pipe.settle, Bool.false_eq_true, hr, false_and, if_false]
    exact ⟨hused, rfl, rfl, rfl⟩

theorem Pipes.pipeCloseEnd_apply (ps : Pipes) (idb : BitVec 32) (isWrite : Bool)
    (id : Fin maxPipes) (hused : (ps id).used = true) : (ps.pipeCloseEnd idb isWrite).1 id =
      if idb = BitVec.ofNat 32 id.val then ((ps id).dropRef isWrite).1 else ps id := by
  simp only [Pipes.pipeCloseEnd]
  split
  case h_1 hnone =>
    rw [if_neg]
    intro he
    rw [(ps.lookup_eq idb id).mpr ⟨he, hused⟩] at hnone
    cases hnone
  case h_2 j hj =>
    obtain ⟨hidb, _⟩ := (ps.lookup_eq idb j).mp hj
    show Function.update ps j _ id = _
    rw [Function.update_apply]
    split
    case isTrue he => rw [he, if_pos hidb]
    case isFalse hne =>
      rw [if_neg]
      intro he
      have hsome := hj.symm.trans ((ps.lookup_eq idb id).mpr ⟨he, hused⟩)
      exact hne (Option.some.inj hsome).symm

namespace Io

theorem wake_pipes (s : Io) (p : Nat) : (s.wake p).pipes = s.pipes := by
  simp only [wake]
  split <;> rfl

/-- What a released handle does to the pipe `id`. -/
theorem closeHandle_pipes (s : Io) (h : BitVec 32) (id : Fin maxPipes)
    (hused : (s.pipes id).used = true) : (s.closeHandle h).pipes id =
      if isPipe h = true ∧ ufdPipeId h = BitVec.ofNat 32 id.val then
        ((s.pipes id).dropRef (ufdPipeIsWrite h)).1
      else s.pipes id := by
  simp only [closeHandle]
  split
  case isTrue hp =>
    simp only [hp, true_and]
    refine Eq.trans ?_ (s.pipes.pipeCloseEnd_apply (ufdPipeId h) (ufdPipeIsWrite h) id hused)
    show (Io.wake _ _).pipes id = _
    rw [wake_pipes]
    rfl
  case isFalse hp =>
    have hother : ¬(isPipe h = true ∧ ufdPipeId h = BitVec.ofNat 32 id.val) := fun hc => hp hc.1
    rw [if_neg hother]
    split <;> rfl

/-- A pipe that keeps a reader loses the ends in the list, and nothing else. -/
theorem lost_foldl (id : Fin maxPipes) (hs : List (BitVec 32)) : ∀ s : Io,
    (s.pipes id).used = true → hs.countP (isEnd id false) < (s.pipes id).readRefs →
      Lost (hs.countP (isEnd id false)) (hs.countP (isEnd id true)) (s.pipes id)
        ((hs.foldl closeHandle s).pipes id) := by
  induction hs with
  | nil => exact fun s hused _ => ⟨hused, rfl, rfl, rfl⟩
  | cons h rest ih =>
    intro s hused hleft
    have hstep := s.closeHandle_pipes h id hused
    rw [List.foldl_cons]
    simp only [List.countP_cons] at hleft ⊢
    split at hstep
    case isTrue hc =>
      -- One of the pipe's ends: which one decides which count goes down.
      have hend (w : Bool) : isEnd id w h = (ufdPipeIsWrite h == w) := by
        simp [isEnd, hc.1, hc.2]
      cases hw : ufdPipeIsWrite h with
      | true =>
        simp only [hend, hw, Bool.true_beq, beq_self_eq_true, Bool.false_eq_true, if_true, if_false,
          Nat.add_zero] at hleft ⊢
        have hone := lost_dropRef hused true (Nat.lt_of_le_of_lt (Nat.zero_le _) hleft)
        rw [hw] at hstep
        rw [← hstep] at hone
        have hrest := ih (s.closeHandle h) hone.used (hone.readRefs ▸ hleft)
        refine ⟨hrest.used, hrest.readRefs.trans (by rw [hone.readRefs]; rfl), ?_,
          hrest.count.trans hone.count⟩
        rw [hrest.writeRefs, hone.writeRefs, if_pos rfl, Nat.sub_sub, Nat.add_comm]
      | false =>
        simp only [hend, hw, Bool.false_beq, beq_self_eq_true, Bool.not_true,
          Bool.false_eq_true, if_true, if_false, Nat.add_zero] at hleft ⊢
        have hone := lost_dropRef hused false (by simp only [Bool.false_eq_true, if_false]; omega)
        rw [hw] at hstep
        rw [← hstep] at hone
        simp only [Bool.false_eq_true, if_false] at hone
        have hrest := ih (s.closeHandle h) hone.used (by rw [hone.readRefs]; omega)
        refine ⟨hrest.used, ?_, hrest.writeRefs.trans (by rw [hone.writeRefs]; rfl),
          hrest.count.trans hone.count⟩
        rw [hrest.readRefs, hone.readRefs, Nat.sub_sub, Nat.add_comm]
    case isFalse hc =>
      have hend (w : Bool) : isEnd id w h = false := by
        cases hp : isPipe h
        · simp [isEnd, hp]
        · have hid : ufdPipeId h ≠ BitVec.ofNat 32 id.val := fun he => hc ⟨hp, he⟩
          simp [isEnd, hid]
      simp only [hend, Bool.false_eq_true, if_false, Nat.add_zero] at hleft ⊢
      have hrest := ih (s.closeHandle h) (hstep.symm ▸ hused) (hstep.symm ▸ hleft)
      rwa [hstep] at hrest

/-! ### Zombies -/

theorem zombie_of_wake {s : Io} {p q : Nat} (h : ((s.wake p).kernel.procs q).state = .zombie) :
    (s.kernel.procs q).state = .zombie := by
  simp only [wake] at h
  split at h
  · exact h
  rcases eq_or_ne q p with rfl | hq
  · rw [modify_procs_self] at h
    cases h
  · rwa [modify_procs_ne _ _ _ hq] at h

theorem zombie_of_closeHandle {s : Io} {h : BitVec 32} {q : Nat}
    (hz : ((s.closeHandle h).kernel.procs q).state = .zombie) :
    (s.kernel.procs q).state = .zombie := by
  simp only [closeHandle] at hz
  split at hz
  · exact zombie_of_wake
      (s := {s with pipes := (s.pipes.pipeCloseEnd (ufdPipeId h) (ufdPipeIsWrite h)).1}) hz
  · split at hz <;> exact hz

theorem zombie_of_foldl (hs : List (BitVec 32)) {q : Nat} : ∀ s : Io,
    ((hs.foldl closeHandle s).kernel.procs q).state = .zombie →
      (s.kernel.procs q).state = .zombie := by
  induction hs with
  | nil => exact fun s h => h
  | cons h rest ih => exact fun s hz => zombie_of_closeHandle (ih _ hz)

end Io

/-! ### Deaths -/

/-- How a process becomes a zombie: `SYS_EXIT`, a fault from ring 3, a signal delivered to
it, `destroy_process` called with its pid. -/
inductive Death where
  | exit (code : BitVec 32)
  | fault (sig : BitVec 32) (writable : Bool)
  | signal (writable : Bool)
  | destroy

namespace Death

def run (s : Io) (self : Nat) : Death → Io
  | exit code => s.exit self code
  | fault sig writable => s.userFault self sig writable
  | signal writable => s.process (.dispatch self writable)
  | destroy => s.destroyProcess ((s.kernel.procs self).pid.setWidth 64)

def closes : Death → Bool
  | exit _ | fault .. => true
  | signal _ | destroy => false

end Death

/-- None of the descriptors of `p` is a pipe end, and a pipe without data whose writers were
the descriptors of `p` alone, and which has another reader, reads as ended. -/
structure PipesReleased (s s' : Io) (p : Nat) : Prop where
  slots : ∀ i, (s'.kernel.procs p).ufdInuse i = true →
    isPipe ((s'.kernel.procs p).ufdHandle i) = false
  ended : ∀ id, (s.pipes id).used = true → (s.pipes id).count = 0 →
    (s.pipes id).writeRefs = ends (s.kernel.procs p) id true →
    ends (s.kernel.procs p) id false < (s.pipes id).readRefs → ∀ reader n, 0 < n →
      (s'.pipes.pipeRead (BitVec.ofNat 32 id.val) n reader).2 = .bytes []

theorem pipeRead_ended {ps : Pipes} {id : Fin maxPipes} (hused : (ps id).used = true)
    (hcount : (ps id).count = 0) (hw : (ps id).writeRefs = 0) {n : Nat} (hn : 0 < n)
    (reader : Nat) : (ps.pipeRead (BitVec.ofNat 32 id.val) n reader).2 = .bytes [] := by
  rw [Pipes.pipeRead, (ps.lookup_eq _ id).mpr ⟨rfl, hused⟩]
  dsimp only
  rw [if_neg (Nat.ne_of_gt hn)]
  dsimp only
  rw [Pipe.pass, if_neg (by rw [hcount]; decide), if_pos (.inl hw)]

variable (s : Io) (self : Nat)

theorem released_exit (code : BitVec 32) : PipesReleased s (s.exit self code) self := by
  have hshut (i : Fin procMaxFds) : ((s.exit self code).kernel.procs self).ufdInuse i = false := by
    have hroster := (s.closing self).kernel.roster_exit self code true
    have hentry := congrArg (fun r : Roster => (r.entry self).ufdInuse i) hroster
    rw [if_pos rfl] at hentry
    exact hentry.trans (Roster.close_self i)
  refine ⟨fun i hi => ?_, fun id hused hcount hw hr reader n hn => ?_⟩
  · rw [hshut i] at hi
    cases hi
  · have hlost := Io.lost_foldl id (handles (s.kernel.procs self)) s hused hr
    refine pipeRead_ended hlost.used (hlost.count.trans hcount) ?_ hn reader
    exact hlost.writeRefs.trans (by rw [hw]; exact Nat.sub_self _)

/-- A death that changes neither descriptors nor pipes. -/
theorem released_of_same {s s' : Io} {self : Nat} (hroster : s'.kernel.roster = s.kernel.roster)
    (hpipes : s'.pipes = s.pipes) : PipesReleased s s' self ↔
      ∀ i, (s.kernel.procs self).ufdInuse i = true →
        isPipe ((s.kernel.procs self).ufdHandle i) = false := by
  have hentry : (s'.kernel.procs self).core.entry = (s.kernel.procs self).core.entry :=
    congrArg (fun r : Roster => r.entry self) hroster
  have hin : (s'.kernel.procs self).ufdInuse = (s.kernel.procs self).ufdInuse :=
    congrArg Entry.ufdInuse hentry
  have hh : (s'.kernel.procs self).ufdHandle = (s.kernel.procs self).ufdHandle :=
    congrArg Entry.ufdHandle hentry
  refine ⟨fun h i hi => ?_, fun h => ⟨fun i hi => ?_, fun id hused hcount hw _ reader n hn => ?_⟩⟩
  · rw [← hin] at hi
    rw [← hh]
    exact h.slots i hi
  · rw [hin] at hi
    rw [hh]
    exact h i hi
  · rw [hpipes]
    refine pipeRead_ended hused hcount ?_ hn reader
    rw [hw, ends, List.countP_eq_zero]
    intro a ha
    obtain ⟨i, hi, rfl⟩ := List.mem_map.mp ha
    rw [isEnd, h i (List.mem_filter.mp hi).2]
    exact Bool.false_ne_true

/-- A fault that kills: the signal had no handler, so `isr_handler` ends the process. -/
theorem released_userFault (sig : BitVec 32) (writable : Bool)
    (halive : (s.kernel.procs self).state ≠ .zombie)
    (hdead : ((s.userFault self sig writable).kernel.procs self).state = .zombie) :
    PipesReleased s (s.userFault self sig writable) self := by
  have hcores := s.kernel.cores_signalDeliverFault self sig writable
  simp only [Io.userFault] at hdead ⊢
  generalize s.kernel.signalDeliverFault self sig writable = r at hcores hdead ⊢
  obtain ⟨k, delivered⟩ := r
  have hcore : (k.procs self).core = (s.kernel.procs self).core := core_of_cores hcores self
  cases delivered with
  | true => exact absurd ((congrArg Core.state hcore).symm.trans hdead) halive
  | false =>
    have hin : (k.procs self).ufdInuse = (s.kernel.procs self).ufdInuse :=
      congrArg Core.ufdInuse hcore
    have hh : (k.procs self).ufdHandle = (s.kernel.procs self).ufdHandle :=
      congrArg Core.ufdHandle hcore
    have hreleased := released_exit {s with kernel := k} self (128#32 + sig)
    refine ⟨hreleased.slots, ?_⟩
    have hended := hreleased.ended
    simp only [ends, handles, hin, hh] at hended
    exact hended

/-- `destroy_process` makes a zombie of a process the scheduler manages, and of no other. -/
theorem released_destroyProcess (pid : BitVec 64) (halive : (s.kernel.procs self).state ≠ .zombie)
    (hdead : ((s.destroyProcess pid).kernel.procs self).state = .zombie) :
    PipesReleased s (s.destroyProcess pid) self ↔ ∀ i, (s.kernel.procs self).ufdInuse i = true →
        isPipe ((s.kernel.procs self).ufdHandle i) = false := by
  simp only [Io.destroyProcess] at hdead ⊢
  split at hdead
  · exact released_of_same rfl rfl
  case h_2 p hp =>
    split at hdead
    case isTrue hm =>
      rw [if_pos hm]
      exact released_of_same (Io.roster_destroyProcess hp hm) rfl
    case isFalse =>
      -- A process that is freed on the spot keeps the state it was in.
      have hclosed := Io.closesAll_foldl (handles (s.kernel.procs p)) s
      have hp' : p ∈ (s.closing p).kernel.table := by
        rw [show (s.closing p).kernel.table = s.kernel.table from
          congrArg Roster.table hclosed.roster]
        exact List.mem_of_find?_eq_some hp
      have hstate := reapUserProcess_state (s.closing p).kernel hp' self
      exact absurd (Io.zombie_of_foldl _ s (hstate.symm.trans hdead)) halive

/-- A process that becomes a zombie holds no pipe end exactly when it died on a path that
closes its descriptors, or held none. -/
theorem death_releases_pipes_iff (s : Io) (self : Nat) (d : Death)
    (halive : (s.kernel.procs self).state ≠ .zombie)
    (hdead : ((d.run s self).kernel.procs self).state = .zombie) :
    PipesReleased s (d.run s self) self ↔
      d.closes = true ∨ ∀ i, (s.kernel.procs self).ufdInuse i = true →
        isPipe ((s.kernel.procs self).ufdHandle i) = false := by
  cases d with
  | exit code => exact ⟨fun _ => .inl rfl, fun _ => released_exit s self code⟩
  | fault sig writable =>
    exact ⟨fun _ => .inl rfl, fun _ => released_userFault s self sig writable halive hdead⟩
  | signal writable =>
    have hsame : PipesReleased s (Death.run s self (.signal writable)) self ↔ _ :=
      released_of_same (s.kernel.roster_signalDispatch self writable) rfl
    rw [hsame]
    exact ⟨.inr, fun h => h.resolve_left Bool.false_ne_true⟩
  | destroy =>
    have hsame := released_destroyProcess s self _ halive hdead
    exact ⟨fun h => .inr (hsame.mp h), fun h => hsame.mpr (h.resolve_left Bool.false_ne_true)⟩

/-- A process (at 48) opens a pipe (descriptors 3 and 4) and forks a child (at 144) that
closes its write end: the only writer left is the parent, to whom `SIGKILL` is sent. -/
def lastWriter : Io :=
  .after 16 [.process (.load (.loaded 32 0x400000#64 0x500000#64) 0x7FF000#64 48 64),
    .pipe 48 .good, .process (.fork 48 128 144 160 fun _ => 0), .close 144 4#32,
    .process (.kill 2#32 9#32)]

/-- The writer exits first: the child reads the end of the pipe. -/
theorem death_releases_pipes_exit : PipesReleased lastWriter (lastWriter.exit 48 0) 48 ∧
      ((lastWriter.exit 48 0).pipes.pipeRead 0#32 8 144).2 = .bytes [] := by
  have hreleased : PipesReleased lastWriter (lastWriter.exit 48 0) 48 :=
    (death_releases_pipes_iff lastWriter 48 (.exit 0) (by decide +kernel) (by decide +kernel)).mpr
      (.inl rfl)
  exact ⟨hreleased, by decide +kernel⟩

/-- The signal kills it: the zombie keeps both ends of the pipe, and the child's read parks
it for a writer that will never come. -/
theorem killed_writer_keeps_pipe :
    ((Death.run lastWriter 48 (.signal true)).kernel.procs 48).state = .zombie ∧
      ((Death.run lastWriter 48 (.signal true)).kernel.procs 48).ufdInuse ⟨4, by decide⟩ = true ∧
      isPipe (((Death.run lastWriter 48 (.signal true)).kernel.procs 48).ufdHandle ⟨4, by decide⟩) = true ∧
      ((Death.run lastWriter 48 (.signal true)).pipes.pipeRead 0#32 8 144).2 = .parked ∧
      ((Death.run lastWriter 48 .destroy).kernel.procs 48).state = .zombie ∧
      ((Death.run lastWriter 48 .destroy).kernel.procs 48).ufdInuse ⟨4, by decide⟩ = true ∧
      ((Death.run lastWriter 48 .destroy).pipes.pipeRead 0#32 8 144).2 = .parked ∧
      ¬ PipesReleased lastWriter (Death.run lastWriter 48 (.signal true)) 48 := by
  refine ⟨by decide +kernel, by decide +kernel, by decide +kernel, by decide +kernel,
    by decide +kernel, by decide +kernel, by decide +kernel, fun h => ?_⟩
  exact absurd (h.slots ⟨4, by decide⟩ (by decide +kernel)) (by decide +kernel)

end Nyx.Descriptors
