import Nyx.Descriptors.Deaths
import Nyx.Descriptors.Streams

/-! What a system call can do to the pipes and to the tasks that sleep in them.

A call touches the tasks that are not its business in two ways only: the kernel's part leaves
them in the table and in their state, or makes them run (`Spares`), and a function of `pipe.c`
leaves the reader that waits with nothing to read, or forgets and wakes it (`Pipe.Turns`).
Every call but a read that sleeps is a sequence of such touches (`touches_perform`). -/
namespace Nyx.Descriptors
open Nyx.Process Nyx.Process.Kernel Nyx.Lib Roster

/-! ### The pipe a reader waits for -/

namespace Pipe
variable {p q : Pipe}

/-- A reader waits for an empty pipe that has writers, and a free pipe has none. -/
structure Idle (p : Pipe) : Prop where
  waits : p.readerWaiter ≠ 0 → p.count = 0 ∧ 0 < p.writeRefs
  free : p.used = false → p.writeRefs = 0

structure Turns (p q : Pipe) (woken : Nat) : Prop where
  idle : q.Idle
  waiter : q.readerWaiter = p.readerWaiter ∧ woken = 0 ∨ q.readerWaiter = 0 ∧ woken = p.readerWaiter

theorem Turns.same (h : p.Idle) : Turns p p 0 := ⟨h, .inl ⟨rfl, rfl⟩⟩

theorem Idle.no_waiter (h : p.Idle) (hp : 0 < p.count ∨ p.writeRefs = 0) : p.readerWaiter = 0 := by
  by_contra hw
  obtain ⟨hcount, hwrite⟩ := h.waits hw
  omega

theorem turns_addRef (h : p.Idle) (hused : p.used = true) (isWrite : Bool) :
    Turns p (p.addRef isWrite) 0 := by
  cases isWrite with
  | false => exact ⟨⟨h.waits, h.free⟩, .inl ⟨rfl, rfl⟩⟩
  | true =>
    refine ⟨⟨fun hw => ⟨(h.waits hw).1, Nat.succ_pos _⟩, fun hfree => ?_⟩, .inl ⟨rfl, rfl⟩⟩
    have hfree' : p.used = false := hfree
    rw [hused] at hfree'
    cases hfree'

theorem settle_idle (hwaits : p.readerWaiter ≠ 0 → p.count = 0 ∧ 0 < p.writeRefs)
    (hused : p.used = true) : p.settle.Idle ∧ p.settle.readerWaiter = p.readerWaiter := by
  simp only [settle]
  split
  case isTrue hz => exact ⟨⟨hwaits, fun _ => hz.2⟩, rfl⟩
  case isFalse => exact ⟨⟨hwaits, fun hfree => by cases hused.symm.trans hfree⟩, rfl⟩

theorem turns_dropRef (h : p.Idle) (hused : p.used = true) (isWrite : Bool) :
    Turns p (p.dropRef isWrite).1 (p.dropRef isWrite).2 := by
  cases isWrite with
  | false =>
    obtain ⟨hidle, hwaiter⟩ := settle_idle (p := {p with readRefs := p.readRefs - 1}) h.waits hused
    exact ⟨hidle, .inl ⟨hwaiter, rfl⟩⟩
  | true =>
    simp only [dropRef, if_true]
    split
    case isTrue =>
      obtain ⟨hidle, hwaiter⟩ := settle_idle (p := {p with writeRefs := 0, readerWaiter := 0})
        (fun hw => absurd rfl hw) hused
      exact ⟨hidle, .inr ⟨hwaiter, rfl⟩⟩
    case isFalse hleft =>
      obtain ⟨hidle, hwaiter⟩ := settle_idle (p := {p with writeRefs := p.writeRefs - 1})
        (fun hw => ⟨(h.waits hw).1, Nat.pos_of_ne_zero hleft⟩) hused
      exact ⟨hidle, .inl ⟨hwaiter, rfl⟩⟩

/-- All that the loop of `pipe_write` leaves alone. -/
theorem sameEnds_push (src : List (BitVec 8)) : ∀ p : Pipe, SameEnds p (p.push src).1 := by
  induction src with
  | nil => exact SameEnds.refl
  | cons b rest ih =>
    intro p
    simp only [push]
    split
    · have hrest := ih {p with
        buf := Function.update p.buf (slot (p.head + p.count)) b, count := p.count + 1}
      exact ⟨hrest.used, hrest.readRefs, hrest.writeRefs, hrest.readerWaiter⟩
    · exact .refl p

theorem sameEnds_drain (n : Nat) : ∀ p : Pipe, SameEnds p (p.drain n).1 := by
  induction n with
  | zero => exact SameEnds.refl
  | succ n ih =>
    intro p
    simp only [drain]
    split
    · exact .refl p
    have hrest := ih {p with head := (p.head + 1) % pipeBufSize, count := p.count - 1}
    exact ⟨hrest.used, hrest.readRefs, hrest.writeRefs, hrest.readerWaiter⟩

theorem turns_push (h : p.Idle) (src : List (BitVec 8)) :
    Turns p {(p.push src).1 with readerWaiter := 0} (p.push src).1.readerWaiter := by
  have hsame := sameEnds_push src p
  refine ⟨⟨fun hw => absurd rfl hw, fun hfree => ?_⟩, .inr ⟨rfl, hsame.readerWaiter⟩⟩
  exact hsame.writeRefs.trans (h.free (hsame.used.symm.trans hfree))

/-- A pass of `pipe_read` that does not sleep. -/
theorem turns_pass (h : p.Idle) {n self : Nat} (hpass : (p.pass n self).2 ≠ .parked) :
    Turns p (p.pass n self).1 0 := by
  simp only [pass] at hpass ⊢
  split
  case isTrue hcount =>
    have hsame := sameEnds_drain n p
    have hnone := h.no_waiter (.inl hcount)
    refine ⟨⟨fun hw => ?_, fun hfree => ?_⟩, .inl ⟨hsame.readerWaiter, rfl⟩⟩
    · exact absurd (hsame.readerWaiter.trans hnone) hw
    · exact hsame.writeRefs.trans (h.free (hsame.used.symm.trans hfree))
  case isFalse hcount =>
    rw [if_neg hcount] at hpass
    split
    · exact .same h
    case isFalse hwait =>
      rw [if_neg hwait] at hpass
      exact absurd rfl hpass

theorem pass_parked {n self : Nat} (hpass : (p.pass n self).2 = .parked) :
    p.count = 0 ∧ p.writeRefs ≠ 0 ∧ self ≠ 0 ∧ (p.pass n self).1 = {p with readerWaiter := self} := by
  simp only [pass] at hpass ⊢
  split at hpass
  · cases hpass
  case isFalse hcount =>
    rw [if_neg hcount]
    split at hpass
    · cases hpass
    case isFalse hwait =>
      rw [if_neg hwait]
      exact ⟨Nat.eq_zero_of_not_pos hcount, fun hw => hwait (.inl hw), fun h0 => hwait (.inr h0), rfl⟩

/-- Whoever leaves `pipe_read` is not remembered. -/
theorem pass_leaves (h : p.Idle) {n self : Nat} (hself : self ≠ 0)
    (hpass : (p.pass n self).2 ≠ .parked) : (p.pass n self).1.readerWaiter = 0 := by
  have hready : 0 < p.count ∨ p.writeRefs = 0 := by
    by_contra hnone
    rw [not_or] at hnone
    refine hpass ?_
    simp only [pass, if_neg hnone.1, hnone.2, hself, or_self, if_false]
  rcases (turns_pass h hpass).waiter with ⟨hsame, _⟩ | ⟨hnone, _⟩
  · exact hsame.trans (h.no_waiter hready)
  · exact hnone

end Pipe

namespace Pipes
variable (ps : Pipes)

def Turned (ps ps' : Pipes) (woken : Nat) : Prop :=
  ps' = ps ∧ woken = 0 ∨ ∃ i q, ps' = Function.update ps i q ∧ ((ps i).Idle → (ps i).Turns q woken)

theorem turned_pipeNew : Turned ps ps.pipeNew.1 0 := by
  simp only [pipeNew]
  split
  · exact .inl ⟨rfl, rfl⟩
  case h_2 i hi =>
    have hfree : (ps i).used = false := by simpa using List.find?_some hi
    refine .inr ⟨i, _, rfl, fun hidle => ⟨⟨fun hw => absurd rfl hw, fun h => by cases h⟩, .inr ⟨rfl, ?_⟩⟩⟩
    exact (hidle.no_waiter (.inr (hidle.free hfree))).symm

variable (id : BitVec 32) (isWrite : Bool) {n self : Nat}

theorem turned_pipeIncref : Turned ps (ps.pipeIncref id isWrite) 0 := by
  simp only [pipeIncref]
  split
  · exact .inl ⟨rfl, rfl⟩
  case h_2 i hi =>
    have hused := ((ps.lookup_eq id i).mp hi).2
    exact .inr ⟨i, _, rfl, fun hidle => Pipe.turns_addRef hidle hused isWrite⟩

theorem turned_pipeCloseEnd :
    Turned ps (ps.pipeCloseEnd id isWrite).1 (ps.pipeCloseEnd id isWrite).2 := by
  simp only [pipeCloseEnd]
  split
  · exact .inl ⟨rfl, rfl⟩
  case h_2 i hi =>
    have hused := ((ps.lookup_eq id i).mp hi).2
    exact .inr ⟨i, _, rfl, fun hidle => Pipe.turns_dropRef hidle hused isWrite⟩

theorem turned_pipeWrite (src : List (BitVec 8)) :
    Turned ps (ps.pipeWrite id src).1 (ps.pipeWrite id src).2.1 := by
  simp only [pipeWrite]
  split
  · exact .inl ⟨rfl, rfl⟩
  case h_2 i _ =>
    split
    · exact .inl ⟨rfl, rfl⟩
    split
    · exact .inl ⟨rfl, rfl⟩
    · exact .inr ⟨i, _, rfl, fun hidle => Pipe.turns_push hidle src⟩

theorem turned_pipeRead {id : BitVec 32} (hread : (ps.pipeRead id n self).2 ≠ .parked) :
    Turned ps (ps.pipeRead id n self).1 0 := by
  simp only [pipeRead] at hread ⊢
  split
  · exact .inl ⟨rfl, rfl⟩
  case h_2 i hi =>
    rw [hi] at hread
    dsimp only at hread
    split
    · exact .inl ⟨rfl, rfl⟩
    case isFalse hn =>
      rw [if_neg hn] at hread
      exact .inr ⟨i, _, rfl, fun hidle => Pipe.turns_pass hidle hread⟩

theorem lookup_of_parked {id : BitVec 32} (hread : (ps.pipeRead id n self).2 = .parked) :
    ∃ i, ps.lookup id = some i := by
  simp only [pipeRead] at hread
  split at hread
  · cases hread
  case h_2 i hi => exact ⟨i, hi⟩

end Pipes

/-! ### Tasks that a call leaves alone -/

namespace Io

/-- A task that is spared stays in the table, and keeps its state or is made to run; the
blocks of the heap are owned as before. -/
structure Spares (spare : Nat → Prop) (k k' : Kernel) : Prop where
  owned : k.blocks.Owned → k'.blocks.Owned
  tasks : ∀ p, spare p → p ∈ k.table → p ∈ k'.table ∧
    ((k'.procs p).state = (k.procs p).state ∨ (k'.procs p).state = .run)

def parks (s : Io) : Sys → Option (Nat × Fin maxPipes × Nat)
  | .read self fd count env =>
    match s.ufdLookup self fd with
    | none => none
    | some (_, h) =>
      if isPipe h = true ∧ ¬ (ufdPipeIsWrite h = true ∨ env.heap = false) ∧
          (s.pipes.pipeRead (ufdPipeId h) count self).2 = .parked then
        (s.pipes.lookup (ufdPipeId h)).map fun i => (self, i, count)
      else none
  | _ => none

inductive Touch (spare : Nat → Prop) (s s' : Io) : Prop
  | kernel (hpipes : s'.pipes = s.pipes) (hspares : Spares spare s.kernel s'.kernel)
  | pipes (woken : Nat) (hturned : s.pipes.Turned s'.pipes woken)
      (hkernel : s'.kernel = (s.wake woken).kernel)

abbrev Touches (spare : Nat → Prop) : Io → Io → Prop := Relation.ReflTransGen (Touch spare)

def Alive (spare : Nat → Prop) (k : Kernel) : Prop :=
  ∀ p, spare p → p ∈ k.table ∧ (k.procs p).state ≠ .zombie

section
variable {spare : Nat → Prop} {s s' : Io} {k k' : Kernel} {self : Nat}

theorem spares_refl (k : Kernel) : Spares spare k k := ⟨id, fun _ _ hp => ⟨hp, .inl rfl⟩⟩

theorem spares_of_lets {may : Nat → PState → Prop} (h : Lets may k k')
    (howned : k.blocks.Owned → k'.blocks.Owned) (htable : k.table ⊆ k'.table)
    (hmay : ∀ p st, spare p → ¬ may p st) : Spares spare k k' := by
  refine ⟨howned, fun p hp hmem => ⟨htable hmem, ?_⟩⟩
  rcases h p with he | hrun | hm
  · exact .inl he
  · exact .inr hrun
  · exact absurd hm (hmay p _ hp)

theorem spares_of_cores (h : k'.cores = k.cores) (howned : k.blocks.Owned → k'.blocks.Owned) :
    Spares spare k k' := spares_of_lets (lets_of_cores h : Lets (fun _ _ => False) k k') howned
    (fun _ hp => (show k'.table = k.table from congrArg Cores.table h) ▸ hp) fun _ _ _ => id

theorem spares_modify (k : Kernel) (p : Nat) {f : Proc → Proc}
    (hf : ∀ t, (f t).state = t.state ∨ (f t).state = .run)
    (hblocks : (k.modify p f).blocks = k.blocks) : Spares spare k (k.modify p f) := by
  have hlets : Lets (fun _ _ => False) k (k.modify p f) := by
    refine lets_modify k p ?_
    rcases hf (k.procs p) with he | hrun
    · exact .inl he
    · exact .inr (.inl hrun)
  exact spares_of_lets hlets (fun hk => hblocks ▸ hk) (fun _ hp => hp) fun _ _ _ => id

theorem touch_kernel {k : Kernel} (h : Spares spare s.kernel k) :
    Touch spare s {s with kernel := k} := .kernel rfl h

theorem touch_same (hpipes : s'.pipes = s.pipes) (hkernel : s'.kernel = s.kernel) :
    Touch spare s s' := .kernel hpipes (hkernel ▸ spares_refl _)

theorem spares_wake (s : Io) (p : Nat) : Spares spare s.kernel (s.wake p).kernel := by
  simp only [wake]
  split
  · exact spares_refl _
  dsimp only
  apply spares_modify
  · exact fun _ => .inr rfl
  · exact s.kernel.blocks_modify p _ (fun _ => rfl) fun _ => rfl

theorem Touch.spares (h : Touch spare s s') : Spares spare s.kernel s'.kernel := by
  cases h with
  | kernel _ hspares => exact hspares
  | pipes woken _ hkernel =>
    rw [hkernel]
    exact spares_wake s woken

theorem Alive.touches (ha : Alive spare s.kernel) (h : Touches spare s s') :
    Alive spare s'.kernel := by
  induction h with
  | refl => exact ha
  | tail _ hlast ih =>
    intro p hp
    obtain ⟨hmem, hstate⟩ := ih p hp
    obtain ⟨hmem', hkept | hrun⟩ := hlast.spares.tasks p hp hmem
    · exact ⟨hmem', hkept ▸ hstate⟩
    · exact ⟨hmem', hrun ▸ nofun⟩

/-! ### The functions of `pipe.c` -/

theorem wake_kernel (s : Io) (ps : Pipes) (p : Nat) :
    ({s with pipes := ps}.wake p).kernel = (s.wake p).kernel := by
  simp only [wake]
  split <;> rfl

/-- A function of `pipe.c` with the wake it asks for. -/
theorem touch_pipes {ps : Pipes} {woken : Nat} (h : s.pipes.Turned ps woken) :
    Touch spare s ({s with pipes := ps}.wake woken) := by
  refine .pipes woken ?_ (s.wake_kernel ps woken)
  rw [wake_pipes]
  exact h

theorem touches_log (s : Io) (c : Call) : Touches spare s (s.log c) := .single (touch_same rfl rfl)

theorem touches_pipeIncref (s : Io) (h : BitVec 32) : Touches spare s (s.pipeIncref h) :=
  .trans (.single (touch_pipes (s.pipes.turned_pipeIncref _ _))) (touches_log _ _)

theorem touches_pipeCloseEnd (s : Io) (h : BitVec 32) : Touches spare s (s.pipeCloseEnd h) :=
  .trans (.single (touch_pipes (s.pipes.turned_pipeCloseEnd _ _))) (touches_log _ _)

theorem touches_closeHandle (s : Io) (h : BitVec 32) : Touches spare s (s.closeHandle h) := by
  simp only [closeHandle]
  split
  · exact touches_pipeCloseEnd s h
  split
  · exact .single (touch_same rfl rfl)
  · exact touches_log s _

theorem touches_foldl (hs : List (BitVec 32)) :
    ∀ s : Io, Touches spare s (hs.foldl closeHandle s) := by
  induction hs with
  | nil => exact fun _ => .refl
  | cons h rest ih => exact fun s => (touches_closeHandle s h).trans (ih _)

theorem touches_increfs (hs : List (BitVec 32)) :
    ∀ s : Io, Touches spare s (hs.foldl pipeIncref s) := by
  induction hs with
  | nil => exact fun _ => .refl
  | cons h rest ih => exact fun s => (touches_pipeIncref s h).trans (ih _)

/-! ### Descriptor tables -/

theorem touch_setSlot (s : Io) (p : Nat) (i : Fin procMaxFds) (b : Bool) (h offset : BitVec 32) :
    Touch spare s (s.setSlot p i b h offset) :=
  touch_kernel (spares_modify _ p (fun _ => .inl rfl) (blocks_setSlot s p i b h offset))

theorem touch_clearSlot (s : Io) (p : Nat) (i : Fin procMaxFds) : Touch spare s (s.clearSlot p i) :=
  touch_kernel (spares_modify _ p (fun _ => .inl rfl) (blocks_clearSlot s p i))

theorem touch_setOffset (s : Io) (p : Nat) (i : Fin procMaxFds) (offset : BitVec 32) :
    Touch spare s (s.setOffset p i offset) :=
  touch_kernel (spares_modify _ p (fun _ => .inl rfl) (blocks_setOffset s p i offset))

theorem touches_ufdAlloc (s : Io) (self : Nat) (h : BitVec 32) :
    Touches spare s (s.ufdAlloc self h).1 := by
  rcases s.ufdAlloc_cases self h with he | ⟨i, _, he⟩
  · rw [he]
  rw [he]
  exact .single (touch_setSlot ..)

/-! ### System calls -/

/-- Calls that change only sockets. -/
theorem touches_same (hpipes : s'.pipes = s.pipes) (hkernel : s'.kernel = s.kernel) :
    Touches spare s s' := .single (touch_same hpipes hkernel)

theorem touches_sysOpen (node : Option Node) (append : Bool) (env : Env) :
    Touches spare s (s.sysOpen self node append env).1 := by
  simp only [sysOpen]
  split
  · exact .refl
  case h_2 n =>
    have halloc : Touches spare s ((s.log (.vfs .open n.handle)).ufdAlloc self n.handle).1 :=
      (touches_log s _).trans (touches_ufdAlloc _ self n.handle)
    split
    case h_1 he =>
      rw [he] at halloc
      exact halloc.trans (touches_log ..)
    case h_2 he =>
      rw [he] at halloc
      split
      · exact halloc.trans ((touches_log ..).trans (.single (touch_setOffset ..)))
      · exact halloc

theorem touches_advance (s : Io) (self : Nat) (i : Fin procMaxFds) (n : BitVec 32) :
    Touches spare s (s.advance self i n) := by
  simp only [advance]
  split
  · exact .single (touch_setOffset ..)
  · exact .refl

variable (fd : BitVec 32) {caller : Option Nat}

theorem touches_sysWrite (src : List (BitVec 8)) (env : Env) :
    Touches spare s (s.sysWrite self fd src env).1 := by
  simp only [sysWrite]
  split
  · exact .refl
  case h_2 i h _ =>
    split
    · exact .refl
    split
    · exact .trans (.single (touch_pipes (s.pipes.turned_pipeWrite _ src))) (touches_log _ _)
    split
    · exact touches_log s _
    · exact (touches_log s _).trans (touches_advance ..)

theorem touches_sysRead {fd : BitVec 32} {count : Nat} {env : Env}
    (hread : s.parks (.read self fd count env) = none) :
    Touches spare s (s.sysRead self fd count env).1 := by
  simp only [sysRead]
  split
  · exact .refl
  case h_2 i h hl =>
    split
    case isTrue hp =>
      split
      · exact .refl
      case isFalse hw =>
        have hnot : (s.pipes.pipeRead (ufdPipeId h) count self).2 ≠ .parked := by
          intro hpark
          obtain ⟨j, hj⟩ := s.pipes.lookup_of_parked hpark
          simp only [parks, hl, hp, hw, hpark, hj, not_false_eq_true, and_self, if_true,
            Option.map_some] at hread
          cases hread
        have hturned := s.pipes.turned_pipeRead hnot
        generalize s.pipes.pipeRead (ufdPipeId h) count self = r at hturned hnot
        obtain ⟨ps, result⟩ := r
        have hdrained : Touches spare s {s.log (.pipe .read h) with pipes := ps} :=
          .single (.pipes 0 hturned rfl)
        cases result with
        | failed => exact hdrained
        | bytes data => exact hdrained
        | parked => exact absurd rfl hnot
    case isFalse =>
      split
      · exact .refl
      split
      · exact touches_log s _
      · exact (touches_log s _).trans (touches_advance ..)

theorem touches_sysClose : Touches spare s (s.sysClose self fd).1 := by
  simp only [sysClose]
  split
  · exact .refl
  · exact .trans (.single (touch_clearSlot ..)) (touches_closeHandle _ _)

theorem touches_sysDup2 (oldfd newfd : BitVec 32) :
    Touches spare s (s.sysDup2 self oldfd newfd).1 := by
  simp only [sysDup2]
  split
  case h_1 i h j _ _ =>
    split
    · exact .refl
    generalize hs' : (if (s.kernel.procs (s.fdOwner self)).ufdInuse j = true then _ else s) = s'
    have hclosed : Touches spare s s' := by
      rw [← hs']
      split
      · refine .trans ?_ (.single (touch_clearSlot ..))
        split
        · exact touches_pipeCloseEnd s _
        · exact touches_log s _
      · exact .refl
    refine hclosed.trans ?_
    split
    · exact (touches_pipeIncref s' h).trans (.single (touch_setSlot ..))
    · exact .trans (.single (touch_setSlot ..)) (.single (touch_clearSlot ..))
  · exact .refl

theorem touches_sysDup (oldfd : BitVec 32) : Touches spare s (s.sysDup self oldfd).1 := by
  simp only [sysDup]
  split
  · exact .refl
  case h_2 i h _ =>
    have halloc : Touches spare s (s.ufdAlloc self h).1 := touches_ufdAlloc s self h
    split
    case h_1 he =>
      rw [he] at halloc
      exact halloc
    case h_2 s' j he =>
      rw [he] at halloc
      refine halloc.trans (.trans ?_ (.single (touch_setOffset ..)))
      split
      · exact touches_pipeIncref s' h
      split
      · exact .refl
      · exact touches_log s' _

theorem touches_sysPipe (env : Env) : Touches spare s (s.sysPipe self env).1 := by
  have hturned := s.pipes.turned_pipeNew
  simp only [sysPipe]
  split
  · exact .refl
  case h_2 ps id he =>
    rw [he] at hturned
    generalize hs₁ : Io.log (Io.log {s with pipes := ps} _) _ = s₁
    have hmade : Touches spare s s₁ := by
      rw [← hs₁]
      exact .single (.pipes 0 hturned rfl)
    have hr := hmade.trans (touches_ufdAlloc s₁ self (ufdPipeMake id false))
    generalize s₁.ufdAlloc self (ufdPipeMake id false) = a at hr ⊢
    have hw := hr.trans (touches_ufdAlloc a.1 self (ufdPipeMake id true))
    generalize a.1.ufdAlloc self (ufdPipeMake id true) = b at hw ⊢
    split
    · exact hw
    refine ((hw.trans ?_).trans (touches_pipeCloseEnd _ _)).trans (touches_pipeCloseEnd _ _)
    have hclear (u : Io) (i : Fin procMaxFds) : Touches spare u (u.clearSlot (u.fdOwner self) i) :=
      .single (touch_clearSlot ..)
    cases a.2 <;> cases b.2
    · exact .refl
    · exact hclear ..
    · exact hclear ..
    · exact (hclear ..).trans (hclear ..)

theorem touches_installSocket (s : Io) (self : Nat) (id : Fin maxSockets) :
    Touches spare s (s.installSocket self id).1 := by
  simp only [installSocket]
  generalize hs₁ : Io.log {s with makers := _} _ = s₁
  have hmade : Touches spare s s₁ := by
    rw [← hs₁]
    exact touches_same rfl rfl
  have halloc := hmade.trans (touches_ufdAlloc s₁ self (ufdSockMake id))
  split
  case h_1 he =>
    rw [he] at halloc
    exact halloc.trans (touches_same rfl rfl)
  case h_2 he =>
    rw [he] at halloc
    exact halloc

/-! ### Quiet calls -/

/-- No pipe changes, and of the tasks nothing but an offset of the caller. -/
inductive Quiet (caller : Option Nat) (s s' : Io) : Prop
  | keeps (hpipes : s'.pipes = s.pipes) (hcores : s'.kernel.cores = s.kernel.cores)
      (howned : s.kernel.blocks.Owned → s'.kernel.blocks.Owned)
  | seeks (self : Nat) (hself : self ∈ caller) (i : Fin procMaxFds) (offset : BitVec 32)
      (hpipes : s'.pipes = s.pipes)
      (hkernel : s'.kernel = (s.setOffset (s.fdOwner self) i offset).kernel)

theorem Quiet.same (hpipes : s'.pipes = s.pipes) (hkernel : s'.kernel = s.kernel) :
    Quiet caller s s' := .keeps hpipes (congrArg Kernel.cores hkernel) fun hk => hkernel ▸ hk

theorem Quiet.touches (h : Quiet caller s s') : Touches spare s s' := by
  cases h with
  | keeps hpipes hcores howned => exact .single (.kernel hpipes (spares_of_cores hcores howned))
  | seeks self _ i offset hpipes hkernel =>
    exact .single (.kernel hpipes (hkernel ▸ (touch_setOffset s ..).spares))

theorem quiet_sysLseek (fd : BitVec 32) (offset : BitVec 64) (whence : BitVec 32) (env : Env) :
    Quiet (some self) s (s.sysLseek self fd offset whence env).1 := by
  simp only [sysLseek]
  split
  · exact .same rfl rfl
  case h_2 i h _ =>
    split
    · exact .same rfl rfl
    split
    · generalize (if whence = 0#32 then 0#64 else _) = base
      split
      · refine .same ?_ ?_ <;> dsimp only <;> split <;> rfl
      · refine .seeks self rfl i ((base + offset).setWidth 32) ?_ ?_ <;> dsimp only <;> split <;> rfl
    · exact .same rfl rfl

theorem quiet_onSocket (op : SockOp) (ready : Bool) (result : BitVec 32) :
    Quiet caller s (s.onSocket self fd op ready result).1 := by
  simp only [onSocket]
  split
  · exact .same rfl rfl
  · split <;> exact .same rfl rfl

theorem sysPoll_same (self : Nat) (fds : List (BitVec 32 × Bool)) :
    ∀ s : Io, (sysPoll self fds s).pipes = s.pipes ∧ (sysPoll self fds s).kernel = s.kernel := by
  induction fds with
  | nil => exact fun _ => ⟨rfl, rfl⟩
  | cons fd rest ih =>
    intro s
    rw [sysPoll, (ih _).1, (ih _).2]
    split
    · exact ⟨rfl, rfl⟩
    · split <;> split <;> exact ⟨rfl, rfl⟩

theorem quiet_sysMmap (length : BitVec 64) (prot : BitVec 32) (fd : Option (BitVec 32))
    (off : BitVec 32) (block : Nat) (readable : Bool) (env : Env) :
    Quiet (some self) s (s.sysMmap self length prot fd off block readable env).1 := by
  have hcores (file : FileArg) := blind_cores.doMmap s.kernel self length prot file block readable
  have howned (file : FileArg) (hk : s.kernel.blocks.Owned) :=
    owned_doMmap hk self length prot file block readable
  simp only [sysMmap]
  split
  · exact .keeps rfl (hcores _) (howned _)
  split
  · exact .same rfl rfl
  split
  · exact .same rfl rfl
  · refine .keeps ?_ (hcores _) (howned _)
    split <;> rfl

def isQuiet : Sys → Bool
  | .fsize .. | .fstat .. | .lseek .. | .connect .. | .bind .. | .listen .. | .sendto ..
  | .recvfrom .. | .poll .. | .mmap .. | .getdents .. | .readFile .. => true
  | _ => false

theorem quiet_perform {sys : Sys} (hq : isQuiet sys = true) :
    Quiet sys.caller s (sys.perform s) := by
  cases sys with
  | fsize self fd env =>
    simp only [Sys.perform, sysFsize]
    split <;> exact .same rfl rfl
  | fstat self fd env =>
    simp only [Sys.perform, sysFstat]
    split
    · exact .same rfl rfl
    · split <;> exact .same rfl rfl
  | lseek => exact quiet_sysLseek ..
  | connect | bind | listen | sendto | recvfrom => exact quiet_onSocket ..
  | poll self fds => exact .same (sysPoll_same self fds s).1 (sysPoll_same self fds s).2
  | mmap => exact quiet_sysMmap ..
  | getdents node | readFile node => cases node <;> exact .same rfl rfl
  | _ => cases hq

/-! ### Deaths and removals -/

/-- A function of the process layer, once the descriptors of `p` are closed. -/
theorem touches_afterClosing {p : Nat} {f : Kernel → Kernel}
    (hf : ∀ k : Kernel, k.table = s.kernel.table → Spares spare k (f k)) :
    Touches spare s (s.afterClosing p f) := by
  have hclosed : Touches spare s (s.closing p) := touches_foldl _ s
  have htable : (s.closing p).kernel.table = s.kernel.table :=
    congrArg Roster.table (closesAll_foldl (handles (s.kernel.procs p)) s).roster
  exact hclosed.trans (.single (touch_kernel (hf _ htable)))

theorem touches_exit (hself : ¬ spare self) (code : BitVec 32) :
    Touches spare s (s.exit self code) := by
  refine touches_afterClosing fun k _ => ?_
  have hlets : Lets (fun q _ => q = self) k (k.exit self code true) := k.lets_exit rfl code true
  have htable : (k.exit self code true).table = k.table :=
    (congrArg Roster.table (k.roster_exit self code true)).trans rfl
  exact spares_of_lets hlets (owned_quiet (k.resources_exit self code true))
    (htable ▸ List.Subset.refl _) fun p _ hp he => hself (he ▸ hp)

theorem touches_userFault (hself : ¬ spare self) (sig : BitVec 32) (writable : Bool) :
    Touches spare s (s.userFault self sig writable) := by
  have hspares : Spares spare s.kernel (s.kernel.signalDeliverFault self sig writable).1 :=
    spares_of_cores (s.kernel.cores_signalDeliverFault self sig writable)
      (owned_diverted (s.kernel.diverted_signalDeliverFault self sig writable))
  simp only [userFault]
  split
  case h_1 k he =>
    rw [he] at hspares
    exact .single (touch_kernel hspares)
  case h_2 k he =>
    rw [he] at hspares
    exact .trans (.single (touch_kernel hspares)) (touches_exit hself _)

theorem touches_reapEntry {p i : Nat} (hi : s.kernel.table[i]? = some p) (hp : ¬ spare p) :
    Touches spare s (s.reapEntry p i) := by
  refine touches_afterClosing fun k hk => ⟨fun hb => owned_reapEntry hb (hk ▸ hi), ?_⟩
  refine fun q hq hmem => ⟨?_, ?_⟩
  · have htable : (k.reapEntry p i).table = swapRemove k.table i := by
      refine (congrArg Roster.table (k.roster_reapEntry p i)).trans ?_
      exact congrArg (swapRemove · i) (((k.roster.close p).reassign_table p).trans rfl)
    have hne : q ≠ p := fun he => hp (he ▸ hq)
    rw [htable]
    exact mem_swapRemove_of_ne (hk ▸ hi) hmem hne
  · have hlets : Lets (fun _ _ => False) k (k.reapEntry p i) := k.lets_reapEntry p i
    rcases hlets q with he | hrun | hno
    · exact .inl he
    · exact .inr hrun
    · exact hno.elim

theorem touches_reapUserProcess {p : Nat} (hp : p ∈ s.kernel.table) (hspare : ¬ spare p) :
    Touches spare s (s.afterClosing p (·.reapUserProcess p)) := by
  refine touches_afterClosing fun k hk => ⟨fun hb => owned_reapUserProcess hb (hk ▸ hp), ?_⟩
  refine fun q hq hmem => ⟨?_, .inl ?_⟩
  · have htable : (k.reapUserProcess p).table = swapRemove k.table (k.table.idxOf p) :=
      (congrArg Roster.table (k.roster_reapUserProcess p (hk ▸ hp))).trans (reassign_table _ p)
    have hne : q ≠ p := fun he => hspare (he ▸ hq)
    rw [htable]
    exact mem_swapRemove_of_ne (List.getElem?_idxOf (hk ▸ hp)) hmem hne
  · exact k.reapUserProcess_state (hk ▸ hp) q

theorem touches_reapFrom (turns : Nat) : ∀ (s : Io) (i : Nat), Alive spare s.kernel →
    Touches spare s (s.reapFrom turns i) := by
  induction turns with
  | zero => exact fun _ _ _ => .refl
  | succ turns ih =>
    intro s i halive
    simp only [reapFrom]
    split
    · exact .refl
    case h_2 p hi =>
      split
      case isTrue hz =>
        -- What is reaped is a zombie, and no spared task becomes one.
        have hzombie : (s.kernel.procs p).state = .zombie := by
          simp only [reapable, Bool.and_eq_true, beq_iff_eq] at hz
          exact hz.1.1.2
        have hreap := touches_reapEntry hi fun hp => (halive p hp).2 hzombie
        exact hreap.trans (ih _ i (halive.touches hreap))
      case isFalse => exact ih s (i + 1) halive

theorem touches_doWaitpid (halive : Alive spare s.kernel) (hself : ¬ spare self)
    (wpid options : BitVec 32) : Touches spare s (s.doWaitpid self wpid options) := by
  simp only [doWaitpid]
  split
  case h_1 zi hzi =>
    obtain ⟨hi, hcollected⟩ := collected_of_findIdx hzi
    have hzombie := List.find?_some hcollected
    rw [Bool.and_eq_true, beq_iff_eq] at hzombie
    exact touches_reapEntry hi fun hp => (halive _ hp).2 hzombie.2
  case h_2 hnone =>
    have hlets : Lets (fun q _ => q = self) s.kernel (s.kernel.doWaitpid self wpid options).1 :=
      s.kernel.lets_doWaitpid rfl wpid options
    have htable : (s.kernel.doWaitpid self wpid options).1.table = s.kernel.table :=
      congrArg Roster.table (roster_doWaitpid hnone)
    refine .single (touch_kernel (spares_of_lets hlets ?_ (htable ▸ List.Subset.refl _) ?_))
    · exact fun hk => owned_doWaitpid hk self wpid options
    · exact fun p _ hp he => hself (he ▸ hp)

theorem touches_destroyProcess {pid : BitVec 64}
    (hpid : ∀ p, spare p → (s.kernel.procs p).pid.setWidth 64 ≠ pid) :
    Touches spare s (s.destroyProcess pid) := by
  simp only [destroyProcess]
  split
  · exact .refl
  case h_2 p hp =>
    split
    case isTrue hm =>
      have hlets : Lets (fun q _ => (s.kernel.procs q).pid.setWidth 64 = pid) s.kernel
          (s.kernel.destroyProcess pid) := s.kernel.lets_destroyProcess fun _ hq => hq
      have htable : (s.kernel.destroyProcess pid).table = s.kernel.table :=
        congrArg Roster.table (roster_destroyProcess hp hm)
      refine .single (touch_kernel (spares_of_lets hlets ?_ (htable ▸ List.Subset.refl _) ?_))
      · exact fun hk => owned_destroyProcess hk pid
      · exact fun q _ hq => hpid q hq
    case isFalse =>
      have hfound := List.find?_some hp
      rw [Bool.and_eq_true, beq_iff_eq] at hfound
      exact touches_reapUserProcess (List.mem_of_find?_eq_some hp) fun hq => hpid p hq hfound.2

/-! ### Every call -/

/-- An operation that frees nobody. -/
theorem spares_perform (hk : s.kernel.blocks.Owned) (op : Op) (hop : op.releases = false)
    (hcaller : ∀ p ∈ op.caller, p ∈ s.kernel.table ∧ ¬ spare p) :
    Spares spare s.kernel (Process.perform s.kernel op) := by
  have hchange : Kernel.Changes (fun _ => True) (fun _ _ => True) s.kernel
      (Process.perform s.kernel op) :=
    roster_change s.kernel op hk trivial (fun p hp => (hcaller p hp).1)
      (fun _ _ _ _ _ _ => trivial) hop
  refine spares_of_lets (s.kernel.lets_perform op) (owned_perform fun p hp => (hcaller p hp).1)
    hchange.table fun p st hp hmay => ?_
  cases op with
  | kwait self _ | dispatch self _ => exact (hcaller self rfl).2 (hmay.1 ▸ hp)
  | exit | userFault | waitpid | destroyProcess => cases hop
  | _ => exact hmay

theorem touches_process (hk : s.kernel.blocks.Owned) (halive : Alive spare s.kernel) {op : Op}
    (hcaller : ∀ p ∈ op.caller, p ∈ s.kernel.table ∧ ¬ spare p)
    (hdestroy : ∀ pid, op = .destroyProcess pid →
      ∀ p, spare p → (s.kernel.procs p).pid.setWidth 64 ≠ pid) :
    Touches spare s (s.process op) := by
  cases op with
  | exit self code => exact touches_exit (hcaller self rfl).2 code
  | userFault self sig writable => exact touches_userFault (hcaller self rfl).2 sig writable
  | reapZombies => exact touches_reapFrom _ s 0 halive
  | waitpid self wpid options => exact touches_doWaitpid halive (hcaller self rfl).2 wpid options
  | destroyProcess pid => exact touches_destroyProcess (hdestroy pid rfl)
  | fork self dir block stack bufs =>
    have hspares := spares_perform hk (.fork self dir block stack bufs) rfl hcaller
    exact .trans (.single (touch_kernel hspares)) (touches_increfs _ _)
  | mmap => exact (quiet_sysMmap ..).touches
  | _ => exact .single (touch_kernel (spares_perform hk _ rfl hcaller))

/-- Every call of a task that is not spared, unless it puts the caller to sleep in a pipe. -/
theorem touches_perform (hk : s.kernel.blocks.Owned) (halive : Alive spare s.kernel) {sys : Sys}
    (hcaller : ∀ p ∈ sys.caller, p ∈ s.kernel.table ∧ ¬ spare p)
    (hdestroy : ∀ pid, sys = .process (.destroyProcess pid) →
      ∀ p, spare p → (s.kernel.procs p).pid.setWidth 64 ≠ pid)
    (hread : s.parks sys = none) : Touches spare s (sys.perform s) := by
  by_cases hq : isQuiet sys = true
  · exact (quiet_perform hq).touches
  cases sys with
  | process op =>
    exact touches_process hk halive hcaller fun pid he => hdestroy pid (congrArg Sys.process he)
  | «open» => exact touches_sysOpen ..
  | read => exact touches_sysRead hread
  | write => exact touches_sysWrite ..
  | close => exact touches_sysClose ..
  | dup2 => exact touches_sysDup2 ..
  | dup => exact touches_sysDup ..
  | pipe => exact touches_sysPipe ..
  | socket self type env =>
    simp only [Sys.perform, sysSocket]
    split
    · exact touches_same rfl rfl
    refine .trans ?_ (touches_installSocket _ self _)
    exact touches_same rfl rfl
  | accept self fd child =>
    simp only [Sys.perform, sysAccept]
    split
    · exact .refl
    split
    · exact .refl
    split
    · exact touches_log s _
    · refine .trans ?_ (touches_installSocket _ self _)
      exact touches_same rfl rfl
  | _ => exact absurd rfl hq

end
end Io
end Nyx.Descriptors
