import Nyx.Lib.Ring
import Nyx.Lib.Run
import Nyx.Descriptors.Pipes

/-! A pipe as a queue of bytes.

`Queue` is what a pipe is for: at most `PIPE_BUF_SIZE` bytes, first in first out, and the
numbers of its readers and writers. Processes call the functions of `pipe.c` on a pipe in any
order, and those asleep in `pipe_read` look again at any time; a run of the pipe answers every
call as the same run of the queue does (`Stream.history_eq`). -/
namespace Nyx.Descriptors
open Nyx.Lib Function List

/-! ### The queue -/

structure Queue where
  items : List (BitVec 8)
  readers : Nat
  writers : Nat

namespace Queue
variable (q : Queue)

def room : Nat := pipeBufSize - q.items.length

/-- The bytes that fit are accepted, unless nobody is left to read them. -/
def write (src : List (BitVec 8)) : Queue × Option Nat :=
  if q.readers = 0 then (q, none)
  else ({q with items := q.items ++ src.take q.room}, some (min src.length q.room))

/-- Bytes if there are any, the end of the file if none can come, and patience otherwise. -/
def read (n : Nat) : Queue × ReadResult :=
  if q.items ≠ [] then ({q with items := q.items.drop n}, .bytes (q.items.take n))
  else if q.writers = 0 then (q, .bytes [])
  else (q, .parked)

def alive : Bool := q.readers != 0 || q.writers != 0

def incref (isWrite : Bool) : Queue :=
  if q.alive then
    if isWrite then {q with writers := q.writers + 1} else {q with readers := q.readers + 1}
  else q

def closeEnd (isWrite : Bool) : Queue :=
  if isWrite then {q with writers := q.writers - 1} else {q with readers := q.readers - 1}

end Queue

/-! ### Calls -/

inductive PipeEvent where
  | write (src : List (BitVec 8))
  | read (self n : Nat)
  /-- A process asleep in `pipe_read` runs again. -/
  | resume (self : Nat)
  | incref (isWrite : Bool)
  | closeEnd (isWrite : Bool)

/-- What a call returns; nothing when it is not made. -/
inductive Outcome where
  | wrote (n : Option Nat)
  | read (r : ReadResult)
  | none

/-- Who sleeps in a read, and for how many bytes, after it came to `r`. -/
def insideAfter (inside : Nat → Option Nat) (self n : Nat) (r : ReadResult) : Nat → Option Nat :=
  Function.update inside self (if r = .parked then some n else none)

structure Fifo where
  queue : Queue
  inside : Nat → Option Nat

def mayRead (inside : Nat → Option Nat) (self : Nat) : Prop := self ≠ 0 ∧ inside self = none

instance (inside : Nat → Option Nat) (self : Nat) : Decidable (mayRead inside self) :=
  inferInstanceAs (Decidable (_ ∧ _))

namespace Fifo

def step (s : Fifo) : PipeEvent → Fifo × Outcome
  | .write src => ({s with queue := (s.queue.write src).1}, .wrote (s.queue.write src).2)
  | .read self n =>
    if mayRead s.inside self then
      if s.queue.alive && n != 0 then
        (⟨(s.queue.read n).1, insideAfter s.inside self n (s.queue.read n).2⟩,
          .read (s.queue.read n).2)
      else (s, .read .failed)
    else (s, .none)
  | .resume self =>
    match s.inside self with
    | none => (s, .none)
    | some n =>
      (⟨(s.queue.read n).1, insideAfter s.inside self n (s.queue.read n).2⟩,
        .read (s.queue.read n).2)
  | .incref isWrite => ({s with queue := s.queue.incref isWrite}, .none)
  | .closeEnd isWrite => ({s with queue := s.queue.closeEnd isWrite}, .none)

def start : Fifo := ⟨⟨[], 1, 1⟩, fun _ => none⟩

end Fifo

/-- The pipes, and the processes asleep in a read of one of them. -/
structure Stream where
  pipes : Pipes
  inside : Nat → Option Nat

namespace Stream
variable (i : Fin maxPipes)

def pipeId (i : Fin maxPipes) : BitVec 32 := BitVec.ofNat 32 i.val

def step (s : Stream) : PipeEvent → Stream × Outcome
  | .write src =>
    let (pipes, _, n) := s.pipes.pipeWrite (pipeId i) src
    ({s with pipes}, .wrote n)
  | .read self n =>
    if mayRead s.inside self then
      let (pipes, r) := s.pipes.pipeRead (pipeId i) n self
      (⟨pipes, if r = .failed then s.inside else insideAfter s.inside self n r⟩, .read r)
    else (s, .none)
  | .resume self =>
    match s.inside self with
    | none => (s, .none)
    | some n =>
      -- the pipe was looked up when the call began
      let (p, r) := (s.pipes i).pass n self
      (⟨Function.update s.pipes i p, insideAfter s.inside self n r⟩, .read r)
  | .incref isWrite => ({s with pipes := s.pipes.pipeIncref (pipeId i) isWrite}, .none)
  | .closeEnd isWrite => ({s with pipes := (s.pipes.pipeCloseEnd (pipeId i) isWrite).1}, .none)

end Stream

/-! ### The ring -/

instance : NeZero pipeBufSize := ⟨by decide⟩

namespace Pipe
variable {p : Pipe}

def contents (p : Pipe) : List (BitVec 8) := Ring.contents p.buf p.head p.count

def queue (p : Pipe) : Queue := ⟨p.contents, p.readRefs, p.writeRefs⟩

structure Ok (p : Pipe) : Prop where
  bounded : p.count ≤ pipeBufSize
  used : p.used = p.queue.alive

theorem length_contents : p.contents.length = p.count := Ring.length_contents ..

/-- All that a loop over the ring leaves alone. -/
structure SameEnds (p p' : Pipe) : Prop where
  used : p'.used = p.used
  readRefs : p'.readRefs = p.readRefs
  writeRefs : p'.writeRefs = p.writeRefs
  readerWaiter : p'.readerWaiter = p.readerWaiter

theorem SameEnds.refl (p : Pipe) : SameEnds p p := ⟨rfl, rfl, rfl, rfl⟩

theorem push_spec (src : List (BitVec 8)) : ∀ p : Pipe, p.count ≤ pipeBufSize →
    (p.push src).2 = min src.length (pipeBufSize - p.count) ∧
      (p.push src).1.contents = p.contents ++ src.take (pipeBufSize - p.count) ∧
      (p.push src).1.count ≤ pipeBufSize ∧ SameEnds p (p.push src).1 := by
  induction src with
  | nil =>
    intro p hp
    refine ⟨(Nat.zero_min _).symm, ?_, hp, .refl p⟩
    rw [take_nil, append_nil]
    rfl
  | cons b rest ih =>
    intro p hp
    simp only [push]
    split
    case isTrue hroom =>
      have hstored := Ring.contents_push p.buf p.head hroom b
      obtain ⟨hcount, hitems, hbound, hsame⟩ := ih {p with
        buf := update p.buf (slot (p.head + p.count)) b, count := p.count + 1} hroom
      have hleft : pipeBufSize - p.count = (pipeBufSize - (p.count + 1)) + 1 := by omega
      refine ⟨?_, ?_, hbound, ⟨hsame.used, hsame.readRefs, hsame.writeRefs, hsame.readerWaiter⟩⟩
      · rw [hcount, hleft, length_cons, Nat.add_min_add_right]
      rw [hitems, hleft, take_succ_cons]
      show Ring.contents _ _ _ ++ _ = _
      rw [show (slot (p.head + p.count)) = Ring.cell (p.head + p.count) from rfl, hstored,
        append_assoc, singleton_append]
      rfl
    case isFalse hfull =>
      have hzero : pipeBufSize - p.count = 0 := by omega
      refine ⟨?_, ?_, hp, .refl p⟩
      · rw [hzero, Nat.min_zero]
      · rw [hzero, take_zero, append_nil]

theorem drain_spec (n : Nat) : ∀ p : Pipe, p.count ≤ pipeBufSize →
    (p.drain n).2 = p.contents.take n ∧ (p.drain n).1.contents = p.contents.drop n ∧
      (p.drain n).1.count ≤ pipeBufSize ∧ SameEnds p (p.drain n).1 := by
  induction n with
  | zero => exact fun p hp => ⟨take_zero.symm, drop_zero.symm, hp, .refl p⟩
  | succ n ih =>
    intro p hp
    simp only [drain]
    split
    case isTrue hz =>
      have hnil : p.contents = [] := Ring.contents_eq_nil.mpr hz
      rw [hnil]
      exact ⟨take_nil.symm, drop_nil.symm, hp, .refl p⟩
    case isFalse hz =>
      obtain ⟨c, hc⟩ := Nat.exists_eq_succ_of_ne_zero hz
      have hpop : p.contents = p.buf (slot p.head) ::
          Ring.contents p.buf ((p.head + 1) % pipeBufSize) (p.count - 1) := by
        rw [contents, hc]
        exact Ring.contents_pop p.buf p.head c
      obtain ⟨htaken, hitems, hbound, hsame⟩ := ih
        {p with head := (p.head + 1) % pipeBufSize, count := p.count - 1}
        (Nat.le_trans (Nat.sub_le _ _) hp)
      refine ⟨?_, ?_, hbound, ⟨hsame.used, hsame.readRefs, hsame.writeRefs, hsame.readerWaiter⟩⟩
      · rw [htaken, hpop, take_succ_cons]
        rfl
      · rw [hitems, hpop, drop_succ_cons]
        rfl

theorem SameEnds.ok {p' : Pipe} (h : SameEnds p p') (hp : p.Ok) (hcount : p'.count ≤ pipeBufSize) :
    p'.Ok := by
  refine ⟨hcount, ?_⟩
  rw [h.used, hp.used]
  simp only [Queue.alive, queue, h.readRefs, h.writeRefs]

theorem SameEnds.queue {p' : Pipe} (h : SameEnds p p') :
    p'.queue = {p.queue with items := p'.contents} := by
  simp only [Pipe.queue, h.readRefs, h.writeRefs]

theorem pass_spec (h : p.Ok) (n : Nat) {self : Nat} (hself : self ≠ 0) :
    (p.pass n self).1.Ok ∧ ((p.pass n self).1.queue, (p.pass n self).2) = p.queue.read n := by
  obtain ⟨htaken, hitems, hbound, hsame⟩ := drain_spec n p h.bounded
  have hempty : p.queue.items ≠ [] ↔ 0 < p.count := by
    rw [Nat.pos_iff_ne_zero]
    exact not_congr Ring.contents_eq_nil
  simp only [pass, Queue.read, hempty, hself, or_false]
  split
  · refine ⟨hsame.ok h hbound, ?_⟩
    rw [hsame.queue, hitems, htaken]
    rfl
  · split
    case isTrue hw => exact ⟨h, (if_pos hw).symm⟩
    case isFalse hw => exact ⟨⟨h.bounded, h.used⟩, (if_neg hw).symm⟩

theorem addRef_spec (h : p.Ok) (hused : p.used = true) (isWrite : Bool) :
    (p.addRef isWrite).Ok ∧ (p.addRef isWrite).queue = p.queue.incref isWrite := by
  have halive : p.queue.alive = true := h.used ▸ hused
  rw [Queue.incref, if_pos halive]
  cases isWrite with
  | false =>
    refine ⟨⟨h.bounded, ?_⟩, rfl⟩
    rw [show (p.addRef false).used = p.used from rfl, hused]
    rfl
  | true =>
    refine ⟨⟨h.bounded, ?_⟩, rfl⟩
    rw [show (p.addRef true).used = p.used from rfl, hused]
    simp [addRef, Queue.alive, queue]

theorem settle_spec (hbound : p.count ≤ pipeBufSize) (hused : p.used = true) :
    p.settle.Ok ∧ p.settle.queue = p.queue := by
  simp only [settle]
  split
  case isTrue hz =>
    refine ⟨⟨hbound, ?_⟩, rfl⟩
    simp [Queue.alive, queue, hz]
  case isFalse hz =>
    refine ⟨⟨hbound, ?_⟩, rfl⟩
    rw [hused]
    simp only [Queue.alive, queue]
    rw [eq_comm, Bool.or_eq_true, bne_iff_ne, bne_iff_ne]
    exact not_and_or.mp hz

theorem dropRef_spec (h : p.Ok) (hused : p.used = true) (isWrite : Bool) :
    (p.dropRef isWrite).1.Ok ∧ (p.dropRef isWrite).1.queue = p.queue.closeEnd isWrite := by
  cases isWrite with
  | false =>
    have hsettled := settle_spec (p := {p with readRefs := p.readRefs - 1}) h.bounded hused
    exact ⟨hsettled.1, hsettled.2⟩
  | true =>
    simp only [dropRef, if_true]
    split
    case isTrue hz =>
      have hsettled := settle_spec (p := {p with writeRefs := 0, readerWaiter := 0}) h.bounded hused
      refine ⟨hsettled.1, hsettled.2.trans ?_⟩
      simp only [Queue.closeEnd, queue, hz, if_true]
      rfl
    case isFalse hz =>
      have hsettled := settle_spec (p := {p with writeRefs := p.writeRefs - 1}) h.bounded hused
      exact ⟨hsettled.1, hsettled.2⟩

end Pipe

/-! ### Simulation -/

namespace Stream
variable {i : Fin maxPipes} {s : Stream}

def fifo (i : Fin maxPipes) (s : Stream) : Fifo := ⟨(s.pipes i).queue, s.inside⟩

/-- The pipe is a ring, and the processes asleep are processes. -/
structure Ok (i : Fin maxPipes) (s : Stream) : Prop where
  pipe : (s.pipes i).Ok
  null : s.inside 0 = none

theorem lookup_pipeId (ps : Pipes) (i : Fin maxPipes) :
    ps.lookup (pipeId i) = if (ps i).used then some i else none := by
  split
  case isTrue hu => exact (ps.lookup_eq (pipeId i) i).mpr ⟨rfl, hu⟩
  case isFalse hu =>
    rw [Option.eq_none_iff_forall_not_mem]
    intro j hj
    obtain ⟨hid, hused⟩ := (ps.lookup_eq (pipeId i) j).mp hj
    have hij : i = j := by
      have hval : i.val % 2 ^ 32 = j.val % 2 ^ 32 := congrArg BitVec.toNat hid
      have hi : i.val < 16 := i.isLt
      have hj : j.val < 16 := j.isLt
      exact Fin.ext (by omega)
    exact hu (hij ▸ hused)

theorem insideAfter_null {inside : Nat → Option Nat} (h : inside 0 = none) {self : Nat}
    (hself : self ≠ 0) (n : Nat) (r : ReadResult) : insideAfter inside self n r 0 = none :=
  (update_of_ne hself.symm ..).trans h

section
variable {ps : Pipes}

theorem dead_readers (h : (ps i).Ok) (hused : (ps i).used = false) :
    (ps i).readRefs = 0 ∧ (ps i).writeRefs = 0 := by
  have halive := h.used
  rw [hused, eq_comm] at halive
  simpa [Queue.alive, Pipe.queue] using halive

theorem pipeWrite_spec (h : (ps i).Ok) (src : List (BitVec 8)) :
    ((ps.pipeWrite (pipeId i) src).1 i).Ok ∧
      (((ps.pipeWrite (pipeId i) src).1 i).queue, (ps.pipeWrite (pipeId i) src).2.2) =
        (ps i).queue.write src := by
  simp only [Pipes.pipeWrite, lookup_pipeId, Queue.write]
  cases hused : (ps i).used with
  | false => exact ⟨h, (if_pos (dead_readers h hused).1).symm⟩
  | true =>
    simp only [if_true]
    by_cases hr : (ps i).readRefs = 0
    · rw [if_pos hr, if_pos (show (ps i).queue.readers = 0 from hr)]
      exact ⟨h, rfl⟩
    rw [if_neg hr, if_neg (show (ps i).queue.readers ≠ 0 from hr)]
    obtain ⟨hcount, hitems, hbound, hsame⟩ := Pipe.push_spec src (ps i) h.bounded
    have hroom : (ps i).queue.room = pipeBufSize - (ps i).count := by
      rw [Queue.room]
      exact congrArg (pipeBufSize - ·) Pipe.length_contents
    rw [hroom]
    generalize (ps i).push src = r at hcount hitems hbound hsame
    obtain ⟨p, n⟩ := r
    dsimp only at hcount hitems hbound hsame ⊢
    by_cases hn : n = 0
    · -- nothing is stored: the pipe is full, or the write is of no bytes
      rw [if_pos hn]
      have hnone : src.take (pipeBufSize - (ps i).count) = [] := by
        rw [← length_eq_zero_iff, length_take, Nat.min_comm]
        omega
      refine ⟨h, ?_⟩
      rw [hnone, append_nil, ← hcount, hn]
    · rw [if_neg hn]
      have hok : Pipe.Ok {p with readerWaiter := 0} := ⟨hbound, (hsame.ok h hbound).used⟩
      dsimp only
      rw [update_self, ← hcount]
      refine ⟨hok, Prod.ext ?_ rfl⟩
      show (Pipe.queue p) = _
      rw [hsame.queue, hitems]
      rfl

theorem pipeRead_spec (h : (ps i).Ok) (n : Nat) {self : Nat} (hself : self ≠ 0) :
    ((ps.pipeRead (pipeId i) n self).1 i).Ok ∧
      (((ps.pipeRead (pipeId i) n self).1 i).queue, (ps.pipeRead (pipeId i) n self).2) =
        if (ps i).queue.alive && n != 0 then (ps i).queue.read n
        else ((ps i).queue, .failed) := by
  have hpass := Pipe.pass_spec h n hself
  simp only [Pipes.pipeRead, lookup_pipeId, ← h.used]
  cases (ps i).used with
  | false => exact ⟨h, rfl⟩
  | true =>
    by_cases hn : n = 0
    · rw [hn]
      exact ⟨h, rfl⟩
    simp only [if_true, hn, if_false, update_self, Bool.true_and, bne_iff_ne, ne_eq,
      not_false_eq_true]
    exact hpass

theorem pipeIncref_spec (h : (ps i).Ok) (isWrite : Bool) : (ps.pipeIncref (pipeId i) isWrite i).Ok ∧
      (ps.pipeIncref (pipeId i) isWrite i).queue = (ps i).queue.incref isWrite := by
  simp only [Pipes.pipeIncref, lookup_pipeId]
  cases hused : (ps i).used with
  | false =>
    have hdead : (ps i).queue.alive = false := h.used ▸ hused
    refine ⟨h, ?_⟩
    rw [Queue.incref, hdead]
    rfl
  | true =>
    simp only [if_true, update_self]
    exact Pipe.addRef_spec h hused isWrite

theorem pipeCloseEnd_spec (h : (ps i).Ok) (isWrite : Bool) :
    ((ps.pipeCloseEnd (pipeId i) isWrite).1 i).Ok ∧
      ((ps.pipeCloseEnd (pipeId i) isWrite).1 i).queue = (ps i).queue.closeEnd isWrite := by
  simp only [Pipes.pipeCloseEnd, lookup_pipeId]
  cases hused : (ps i).used with
  | false =>
    obtain ⟨hr, hw⟩ := dead_readers h hused
    refine ⟨h, ?_⟩
    cases isWrite <;> simp [Queue.closeEnd, Pipe.queue, hr, hw]
  | true =>
    simp only [if_true, update_self]
    exact Pipe.dropRef_spec h hused isWrite

end

/-- One call is the call of the queue. -/
theorem step_fifo (h : s.Ok i) (e : PipeEvent) :
    (s.step i e).1.Ok i ∧ ((s.step i e).1.fifo i, (s.step i e).2) = (s.fifo i).step e := by
  cases e with
  | write src =>
    obtain ⟨hok, hsame⟩ := pipeWrite_spec h.pipe src
    refine ⟨⟨hok, h.null⟩, ?_⟩
    simp only [Fifo.step, fifo, ← hsame]
    rfl
  | read self n =>
    simp only [step, Fifo.step]
    by_cases hmay : mayRead s.inside self
    · obtain ⟨hok, hsame⟩ := pipeRead_spec h.pipe n hmay.1
      rw [if_pos hmay, if_pos (show mayRead (s.fifo i).inside self from hmay)]
      generalize s.pipes.pipeRead (pipeId i) n self = r at hok hsame
      obtain ⟨pipes, result⟩ := r
      dsimp only at hok hsame ⊢
      split at hsame
      case isTrue hread =>
        obtain ⟨hqueue, hresult⟩ : (pipes i).queue = ((s.fifo i).queue.read n).1 ∧
            result = ((s.fifo i).queue.read n).2 := Prod.ext_iff.mp hsame
        have hdone : result ≠ .failed := by
          rw [hresult, Queue.read]
          split
          · exact nofun
          · split <;> exact nofun
        rw [if_pos (show ((s.fifo i).queue.alive && n != 0) = true from hread), if_neg hdone,
          ← hqueue, ← hresult]
        exact ⟨⟨hok, insideAfter_null h.null hmay.1 n _⟩, rfl⟩
      case isFalse hread =>
        obtain ⟨hqueue, hresult⟩ := Prod.mk.inj hsame
        rw [if_neg (show ¬((s.fifo i).queue.alive && n != 0) = true from hread), if_pos hresult,
          hresult]
        refine ⟨⟨hok, h.null⟩, Prod.ext ?_ rfl⟩
        exact congrArg (Fifo.mk · s.inside) hqueue
    · rw [if_neg hmay, if_neg (show ¬ mayRead (s.fifo i).inside self from hmay)]
      exact ⟨h, rfl⟩
  | resume self =>
    simp only [step, Fifo.step, fifo]
    cases hin : s.inside self with
    | none => exact ⟨h, rfl⟩
    | some n =>
      have hself : self ≠ 0 := by
        intro he
        rw [he, h.null] at hin
        cases hin
      obtain ⟨hok, hsame⟩ := Pipe.pass_spec h.pipe n hself
      dsimp only
      rw [← hsame, update_self]
      refine ⟨⟨?_, insideAfter_null h.null hself n _⟩, rfl⟩
      show (update s.pipes i _ i).Ok
      rw [update_self]
      exact hok
  | incref isWrite =>
    obtain ⟨hok, hsame⟩ := pipeIncref_spec h.pipe isWrite
    refine ⟨⟨hok, h.null⟩, ?_⟩
    simp only [Fifo.step, fifo, ← hsame]
    rfl
  | closeEnd isWrite =>
    obtain ⟨hok, hsame⟩ := pipeCloseEnd_spec h.pipe isWrite
    refine ⟨⟨hok, h.null⟩, ?_⟩
    simp only [Fifo.step, fifo, ← hsame]
    rfl

end Stream

/-! ### Runs -/

section
variable {σ : Type}

/-- The calls of a run with what they return. -/
def history (step : σ → PipeEvent → σ × Outcome) (s : σ) : List PipeEvent →
    List (PipeEvent × Outcome)
  | [] => []
  | e :: rest => (e, (step s e).2) :: history step (step s e).1 rest

def final (step : σ → PipeEvent → σ × Outcome) : σ → List PipeEvent → σ :=
  run fun s e => (step s e).1

end

def acceptedBy : PipeEvent × Outcome → List (BitVec 8)
  | (.write src, .wrote (some n)) => src.take n
  | _ => []

def returnedBy : PipeEvent × Outcome → List (BitVec 8)
  | (_, .read (.bytes data)) => data
  | _ => []

def accepted (calls : List (PipeEvent × Outcome)) : List (BitVec 8) := calls.flatMap acceptedBy

def returned (calls : List (PipeEvent × Outcome)) : List (BitVec 8) := calls.flatMap returnedBy

namespace Queue

theorem write_conserves (q : Queue) (src : List (BitVec 8)) :
    q.items ++ acceptedBy (.write src, .wrote (q.write src).2) = (q.write src).1.items := by
  simp only [write]
  split
  · exact append_nil _
  show q.items ++ src.take (min src.length q.room) = q.items ++ src.take q.room
  have hall : (src.take q.room).length ≤ src.length := by
    rw [length_take]
    exact Nat.min_le_right _ _
  rw [← take_take, take_of_length_le hall]

theorem read_conserves (q : Queue) (n : Nat) (e : PipeEvent) :
    q.items = returnedBy (e, .read (q.read n).2) ++ (q.read n).1.items := by
  simp only [read]
  split
  · exact (take_append_drop n q.items).symm
  · split <;> rfl

end Queue

/-- What is in the queue and what comes in is what goes out and what stays. -/
theorem fifo_step_conserves (s : Fifo) (e : PipeEvent) :
    s.queue.items ++ acceptedBy (e, (s.step e).2) =
      returnedBy (e, (s.step e).2) ++ (s.step e).1.queue.items := by
  cases e with
  | write src => exact s.queue.write_conserves src
  | read self n =>
    rw [show acceptedBy (.read self n, _) = [] from rfl, append_nil]
    simp only [Fifo.step]
    split
    · split
      · exact s.queue.read_conserves n _
      · rfl
    · rfl
  | resume self =>
    rw [show acceptedBy (.resume self, _) = [] from rfl, append_nil]
    simp only [Fifo.step]
    split
    · rfl
    case h_2 n _ => exact s.queue.read_conserves n _
  | incref isWrite =>
    rw [show acceptedBy (.incref isWrite, _) = [] from rfl, append_nil]
    simp only [Fifo.step, Queue.incref]
    cases s.queue.alive <;> cases isWrite <;> rfl
  | closeEnd isWrite =>
    rw [show acceptedBy (.closeEnd isWrite, _) = [] from rfl, append_nil]
    cases isWrite <;> rfl

theorem fifo_conserves (events : List PipeEvent) (s : Fifo) :
    s.queue.items ++ accepted (history Fifo.step s events) =
      returned (history Fifo.step s events) ++ (final Fifo.step s events).queue.items := by
  induction events generalizing s with
  | nil => exact append_nil _
  | cons e rest ih =>
    simp only [accepted, returned, history, flatMap_cons] at ih ⊢
    rw [← append_assoc, fifo_step_conserves, append_assoc, ih, append_assoc]
    rfl

namespace Stream
variable {i : Fin maxPipes}

theorem history_eq (events : List PipeEvent) (s : Stream) (h : s.Ok i) :
    history (step i) s events = history Fifo.step (s.fifo i) events ∧
      (final (step i) s events).Ok i ∧
      (final (step i) s events).fifo i = final Fifo.step (s.fifo i) events := by
  induction events generalizing s with
  | nil => exact ⟨rfl, h, rfl⟩
  | cons e rest ih =>
    obtain ⟨hok, hsame⟩ := step_fifo h e
    obtain ⟨hfifo, hout⟩ := Prod.ext_iff.mp hsame
    obtain ⟨hrest, hfinal, hlast⟩ := ih (s.step i e).1 hok
    dsimp only at hfifo hout
    refine ⟨?_, hfinal, ?_⟩
    · rw [history, history, hrest, hfifo, hout]
    · rw [final, run, ← final, hlast, hfifo]
      rfl

structure Serves (ps : Pipes) (i : Fin maxPipes) : Prop where
  bounded : (ps i).contents.length ≤ pipeBufSize
  /-- A write accepts what fits, or fails when no reader remains. -/
  write : ∀ src, (ps.pipeWrite (pipeId i) src).2.2 =
    if (ps i).readRefs = 0 then none
    else some (min src.length (pipeBufSize - (ps i).contents.length))
  /-- A read that returns no bytes, at once or after it slept, found the end of the file. -/
  ended : ∀ n self, self ≠ 0 → (ps.pipeRead (pipeId i) n self).2 = .bytes [] ∨
      (n ≠ 0 ∧ ((ps i).pass n self).2 = .bytes []) →
    (ps i).contents = [] ∧ (ps i).writeRefs = 0
  readable : ∀ n self, n ≠ 0 → self ≠ 0 →
    (ps.pipeReadable (pipeId i) = true ↔ (ps.pipeRead (pipeId i) n self).2 ≠ .parked)

end Stream

namespace Queue

theorem read_ended {q : Queue} {n : Nat} (hn : n ≠ 0) (h : (q.read n).2 = .bytes []) :
    q.items = [] ∧ q.writers = 0 := by
  simp only [read] at h
  split at h
  case isTrue hne =>
    obtain ⟨m, rfl⟩ := Nat.exists_eq_succ_of_ne_zero hn
    cases hq : q.items with
    | nil => exact absurd hq hne
    | cons b rest =>
      rw [hq] at h
      cases h
  case isFalse hnil =>
    refine ⟨not_not.mp hnil, ?_⟩
    split at h
    case isTrue hw => exact hw
    case isFalse => cases h

theorem read_parked {q : Queue} {n : Nat} :
    (q.read n).2 = .parked ↔ q.items = [] ∧ q.writers ≠ 0 := by
  simp only [read]
  by_cases hnil : q.items = []
  · by_cases hw : q.writers = 0 <;> simp [hnil, hw]
  · simp [hnil]

end Queue

namespace Stream
variable {i : Fin maxPipes} {ps : Pipes}

theorem serves_of_ok (h : (ps i).Ok) : Serves ps i := by
  refine ⟨?_, fun src => ?_, fun n self hself hread => ?_, fun n self hn hself => ?_⟩
  · rw [Pipe.length_contents]
    exact h.bounded
  · have hwrote := congrArg Prod.snd (pipeWrite_spec h src).2
    refine hwrote.trans ?_
    simp only [Queue.write]
    split
    case isTrue hr => exact (if_pos hr).symm
    case isFalse hr => exact (if_neg hr).symm
  · have hpass : n ≠ 0 ∧ ((ps i).queue.read n).2 = .bytes [] := by
      rcases hread with hread | ⟨hn, hread⟩
      · have hresult := congrArg Prod.snd (pipeRead_spec h n hself).2
        rw [hread] at hresult
        split at hresult
        case isTrue hcond =>
          simp only [Bool.and_eq_true, bne_iff_ne] at hcond
          exact ⟨hcond.2, hresult.symm⟩
        case isFalse => cases hresult
      · have hresult := congrArg Prod.snd (Pipe.pass_spec h n hself).2
        exact ⟨hn, hresult.symm.trans hread⟩
    exact Queue.read_ended hpass.1 hpass.2
  · have hresult := congrArg Prod.snd (pipeRead_spec h n hself).2
    dsimp only at hresult
    have hnn : (n != 0) = true := bne_iff_ne.mpr hn
    rw [hresult, Pipes.pipeReadable, lookup_pipeId, ← h.used, hnn, Bool.and_true]
    cases (ps i).used with
    | false => simp
    | true =>
      have hempty : (ps i).queue.items = [] ↔ (ps i).count = 0 := Ring.contents_eq_nil
      have hwriters : (ps i).queue.writers = (ps i).writeRefs := rfl
      simp only [if_true, ne_eq, Queue.read_parked, hempty, hwriters, Bool.or_eq_true,
        decide_eq_true_eq, beq_iff_eq]
      omega

def start (ps : Pipes) : Stream := ⟨ps, fun _ => none⟩

theorem ok_start {ps₀ : Pipes} (hnew : ps₀.pipeNew = (ps, some i)) :
    (start ps).Ok i ∧ (start ps).fifo i = Fifo.start := by
  have hpipe : ps i = {Pipe.zero with used := true, readRefs := 1, writeRefs := 1} := by
    simp only [Pipes.pipeNew] at hnew
    split at hnew
    · cases hnew
    case h_2 j _ =>
      obtain ⟨hps, hj⟩ := Prod.mk.inj hnew
      rw [← hps, Option.some.inj hj, update_self]
  have hfifo : (start ps).fifo i = Fifo.start := by
    simp only [start, fifo, hpipe]
    rfl
  refine ⟨⟨?_, rfl⟩, hfifo⟩
  show (ps i).Ok
  rw [hpipe]
  exact ⟨Nat.zero_le _, rfl⟩

/-- Whatever processes do to a pipe, it answers as the queue does: the bytes it returned are
the first of those it accepted, the rest are those it holds, and the next call finds it as a
queue of bounded size. -/
theorem pipe_refines_queue {ps₀ : Pipes} (hnew : ps₀.pipeNew = (ps, some i))
    (events : List PipeEvent) :
    history (step i) (start ps) events = history Fifo.step Fifo.start events ∧
      accepted (history (step i) (start ps) events) =
        returned (history (step i) (start ps) events) ++
          ((final (step i) (start ps) events).pipes i).contents ∧
      Serves (final (step i) (start ps) events).pipes i := by
  obtain ⟨hok, hfifo⟩ := ok_start hnew
  obtain ⟨hhistory, hfinal, hlast⟩ := history_eq events (start ps) hok
  rw [hfifo] at hhistory hlast
  refine ⟨hhistory, ?_, serves_of_ok hfinal.pipe⟩
  have hconserved := fifo_conserves events Fifo.start
  rw [hhistory, ← List.nil_append (accepted _)]
  refine hconserved.trans (congrArg (returned _ ++ ·) ?_)
  exact congrArg (fun s : Fifo => s.queue.items) hlast.symm

/-- A reader sleeps until a writer writes, and reads the rest and the end of the file once
the writer has left. -/
def exchange : List PipeEvent :=
  [.read 48 8, .write [1#8, 2#8], .resume 48, .write [3#8, 4#8], .closeEnd true, .read 48 1,
    .read 48 8, .read 48 8]

def fresh : Pipes := (Pipes.pipeNew fun _ => Pipe.zero).1

theorem pipe_refines_queue_exchange :
    returned (history (step ⟨0, by decide⟩) (start fresh) exchange) = [1#8, 2#8, 3#8, 4#8] ∧
      Serves (final (step ⟨0, by decide⟩) (start fresh) exchange).pipes ⟨0, by decide⟩ := by
  have hnew : Pipes.pipeNew (fun _ => Pipe.zero) = (fresh, some ⟨0, by decide⟩) := rfl
  exact ⟨by decide +kernel, (pipe_refines_queue hnew exchange).2.2⟩

end Stream
end Nyx.Descriptors
