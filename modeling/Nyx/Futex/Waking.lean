import Nyx.Futex.Machine

/-! What `FUTEX_WAKE` does.

The loop releases the first tasks of the table that sleep on the physical address of the word,
at most as many as the count, read as an `int` (`wakeFrom_spec`). These are the waiters the
caller means exactly when the word did not move under a sleeping task, and nobody else sleeps
on the frame (`Settled`). -/
namespace Nyx.Futex
open Paging Lib Function List
open Process (PState maxProcesses)

/-! ### The loop -/

section
variable {key : Ptr} {val : BitVec 32} {tasks : Nat → Task}

def picked (tasks : Nat → Task) (key : Ptr) (l : List Nat) (n : Nat) : List Nat :=
  (l.filter (sleepsOn tasks key)).take n

theorem picked_sublist (l : List Nat) (n : Nat) : (picked tasks key l n).Sublist l :=
  (take_sublist n _).trans filter_sublist

theorem filter_update {p : Nat} {l : List Nat} (hp : p ∉ l) (t : Task) :
    l.filter (sleepsOn (update tasks p t) key) = l.filter (sleepsOn tasks key) := by
  apply filter_congr
  intro q hq
  have hne : q ≠ p := fun he => hp (he ▸ hq)
  simp only [sleepsOn, update_of_ne hne]

/-- What is left of the bound, as a number of tasks. -/
theorem toNat_sub_succ {woken : Nat} (h : (woken : Int) < val.toInt) :
    (val.toInt - woken).toNat = (val.toInt - (woken + 1 : Nat)).toNat + 1 := by
  omega

theorem wakeFrom_spec (l : List Nat) (hl : l.Nodup) (woken : Nat) (tasks : Nat → Task) :
    wakeFrom key val l woken tasks =
      (fun p => if p ∈ picked tasks key l (val.toInt - woken).toNat then released (tasks p)
        else tasks p,
        woken + (picked tasks key l (val.toInt - woken).toNat).length) := by
  induction l generalizing woken tasks with
  | nil => simp [wakeFrom, picked]
  | cons p rest ih =>
    obtain ⟨hp, hrest⟩ := nodup_cons.mp hl
    simp only [wakeFrom]
    split
    case isTrue hlt =>
      split
      case isTrue hs =>
        have hpick : picked tasks key (p :: rest) (val.toInt - woken).toNat =
            p :: picked tasks key rest (val.toInt - (woken + 1 : Nat)).toNat := by
          rw [picked, filter_cons_of_pos hs, toNat_sub_succ hlt, take_succ_cons]
          rfl
        have hsame : picked (update tasks p (released (tasks p))) key rest
            (val.toInt - (woken + 1 : Nat)).toNat =
              picked tasks key rest (val.toInt - (woken + 1 : Nat)).toNat := by
          rw [picked, filter_update hp]
          rfl
        rw [ih hrest, hpick, hsame]
        refine Prod.ext ?_ ?_
        · funext q
          dsimp only
          by_cases hq : q = p
          · have hnot : q ∉ picked tasks key rest (val.toInt - (woken + 1 : Nat)).toNat :=
              fun hin => hp (hq ▸ (picked_sublist rest _).subset hin)
            rw [if_neg hnot, hq, update_self, if_pos mem_cons_self]
          · simp only [update_of_ne hq, mem_cons, hq, false_or]
        · simp only [length_cons]
          omega
      case isFalse hs =>
        rw [ih hrest, picked, picked, filter_cons_of_neg hs]
    case isFalse hge =>
      have hzero : (val.toInt - woken).toNat = 0 := by omega
      simp [picked, hzero]

end

/-! ### Invariant -/

/-- A task inside of `FUTEX_WAIT` that sleeps has the key of its call, any other none. -/
structure Task.Ok (t : Task) : Prop where
  idle : t.wait = none → t.futexKey = 0#64
  busy : ∀ w, t.wait = some w → w.key ≠ 0#64 ∧ (t.state = .blocked → t.futexKey = w.key)

theorem Task.Ok.state {t : Task} (h : t.Ok) {state : PState} (hstate : state ≠ .blocked) :
    Task.Ok {t with state := state} :=
  ⟨h.idle, fun w hw => ⟨(h.busy w hw).1, fun hb => absurd hb hstate⟩⟩

theorem released_ok {t : Task} (h : t.Ok) : (released t).Ok :=
  ⟨fun _ => rfl, fun w hw => ⟨(h.busy w hw).1, nofun⟩⟩

namespace Futexes

structure Inv (s : Futexes) : Prop where
  once : s.table.Nodup
  nonnull : 0 ∉ s.table
  room : s.table.length ≤ maxProcesses
  tasks : ∀ p, (s.tasks p).Ok

variable {s : Futexes}

theorem inv_setTask (h : s.Inv) {p : Nat} {t : Task} (ht : t.Ok) : (s.setTask p t).Inv := by
  refine ⟨h.once, h.nonnull, h.room, fun q => ?_⟩
  simp only [setTask, update_apply]
  split
  · exact ht
  · exact h.tasks q

theorem inv_leave (h : s.Inv) (self : Nat) : (s.leave self).Inv :=
  inv_setTask h ⟨fun _ => rfl, nofun⟩

theorem inv_pass (h : s.Inv) (self : Nat) {w : Wait} (hw : w.key ≠ 0#64) :
    (s.pass self w).1.Inv := by
  simp only [pass]
  split
  · exact inv_leave h self
  refine inv_setTask h ⟨nofun, fun w' hw' => ?_⟩
  cases hw'
  exact ⟨hw, fun _ => rfl⟩

theorem inv_wakeFrom (h : s.Inv) (key : Ptr) (val : BitVec 32) (p : Nat) :
    ((wakeFrom key val s.table 0 s.tasks).1 p).Ok := by
  rw [wakeFrom_spec s.table h.once]
  dsimp only
  split
  · exact released_ok (h.tasks p)
  · exact h.tasks p

theorem inv_doFutex (h : s.Inv) (self : Nat) (uaddr : BitVec 64) (op val : BitVec 32) :
    (s.doFutex self uaddr op val).1.Inv := by
  simp only [doFutex]
  split
  · exact h
  case isFalse hkey =>
    split
    · exact ⟨h.once, h.nonnull, h.room, inv_wakeFrom h _ val⟩
    split
    · exact h
    · exact inv_pass h self hkey

theorem inv_enter (h : s.Inv) {p : Nat} (hp : s.Vacant p) (pd : Ptr) : (s.enter p pd).Inv where
  once := by
    show (s.table ++ [p]).Nodup
    rw [nodup_append_comm, singleton_append]
    exact nodup_cons.mpr ⟨hp.2.1, h.once⟩
  nonnull := by
    show 0 ∉ s.table ++ [p]
    simp only [mem_append, mem_singleton, not_or]
    exact ⟨h.nonnull, fun he => hp.1 he.symm⟩
  room := by
    show (s.table ++ [p]).length ≤ maxProcesses
    rw [length_append]
    exact hp.2.2
  tasks := (inv_setTask h (p := p) (t := ⟨pd, .run, 0#64, none⟩) ⟨fun _ => rfl, nofun⟩).tasks

theorem inv_fork (h : s.Inv) (self : Nat) {p : Nat} (hp : s.Vacant p) (room : Bool) :
    (s.fork self p room).Inv := by
  simp only [fork]
  split
  · exact h
  case h_2 sp _ =>
    have hsystem : Inv {s with system := s.system.fork (s.tasks self).pageDirectory sp room} :=
      ⟨h.once, h.nonnull, h.room, h.tasks⟩
    split
    · exact inv_enter hsystem hp _
    · exact hsystem

theorem inv_step (s : Futexes) (e : Event) (h : s.Inv) : (s.step e).Inv := by
  cases e with
  | futex self uaddr op val =>
    simp only [step]
    split
    · exact inv_doFutex h self uaddr op val
    · exact h
  | resume self =>
    simp only [step]
    split
    · exact h
    case h_2 w hw =>
      split
      · simp only [resume]
        split
        · exact inv_leave h self
        · exact inv_pass h self ((h.tasks self).busy w hw).1
      · exact h
  | memory self op =>
    simp only [step]
    split
    · exact ⟨h.once, h.nonnull, h.room, h.tasks⟩
    · exact h
  | fork self p room =>
    simp only [step]
    split
    case isTrue hp => exact inv_fork h self hp.2 room
    case isFalse => exact h
  | clone self p =>
    simp only [step]
    split
    case isTrue hp => exact inv_enter h hp.2 _
    case isFalse => exact h
  | sleep self =>
    simp only [step]
    split
    case isTrue hr =>
      refine inv_setTask h ⟨(h.tasks self).idle, fun w hw => ?_⟩
      rw [hr.2.2] at hw
      cases hw
    case isFalse => exact h
  | raise p =>
    simp only [step]
    split
    · exact inv_setTask h ((h.tasks p).state nofun)
    · exact h
  | exit self =>
    simp only [step]
    split
    · exact inv_setTask h ((h.tasks self).state nofun)
    · exact h
  | reap i =>
    simp only [step]
    split
    · exact h
    case h_2 p hi =>
      split
      · refine ⟨nodup_swapRemove h.once hi, fun h0 => ?_, ?_, h.tasks⟩
        · exact h.nonnull ((mem_swapRemove h.once hi).mp h0).1
        · show (swapRemove s.table i).length ≤ maxProcesses
          rw [length_swapRemove]
          exact Nat.le_trans (Nat.sub_le _ _) h.room
      · exact h

theorem inv_after (system : System) (crew : Crew) (events : List Event) :
    (after system crew events).Inv := by
  have hstart : (start system crew).Inv :=
    ⟨crew.once, crew.nonnull, crew.room, fun _ => ⟨fun _ => rfl, nofun⟩⟩
  exact run_keeps inv_step _ events hstart

/-! ### Who is woken -/

/-- The tasks of the caller's address space that `FUTEX_WAIT` parked on this address. -/
def Waits (s : Futexes) (self : Nat) (uaddr : BitVec 64) (p : Nat) : Prop :=
  (s.tasks p).state = .blocked ∧ (s.tasks p).pageDirectory = (s.tasks self).pageDirectory ∧
    ∃ w ∈ (s.tasks p).wait, w.uaddr = uaddr

instance (self : Nat) (uaddr : BitVec 64) (p : Nat) : Decidable (s.Waits self uaddr p) :=
  inferInstanceAs (Decidable (_ ∧ _ ∧ _))

def waiters (s : Futexes) (self : Nat) (uaddr : BitVec 64) : List Nat :=
  s.table.filter fun p => s.Waits self uaddr p

/-- `FUTEX_WAKE` releases as many waiters as it was asked for, if there are that many, nobody
else, and says how many. -/
def WakesExactly (s : Futexes) (self : Nat) (uaddr : BitVec 64) (val : BitVec 32) : Prop :=
  ∃ freed : List Nat, freed.Sublist (s.waiters self uaddr) ∧
    freed.length = min val.toNat (s.waiters self uaddr).length ∧
    s.doFutex self uaddr futexWake val =
      ({s with tasks := fun p => if p ∈ freed then released (s.tasks p) else s.tasks p},
        .returned freed.length)

/-- The physical address of the word is the key of exactly the tasks that the caller's
`FUTEX_WAKE` is meant for. -/
def Settled (s : Futexes) (self : Nat) (uaddr : BitVec 64) : Prop :=
  ∀ p ∈ s.table, (s.tasks p).state = .blocked → ∀ w ∈ (s.tasks p).wait,
    (w.key = s.key self uaddr ↔
      (s.tasks p).pageDirectory = (s.tasks self).pageDirectory ∧ w.uaddr = uaddr)

variable {uaddr : BitVec 64} {self : Nat}

theorem doFutex_wake (h : s.Inv) (hkey : s.key self uaddr ≠ 0#64) (val : BitVec 32) :
    s.doFutex self uaddr futexWake val =
      ({s with tasks := fun p =>
          if p ∈ picked s.tasks (s.key self uaddr) s.table val.toInt.toNat then
            released (s.tasks p)
          else s.tasks p},
        .returned (picked s.tasks (s.key self uaddr) s.table val.toInt.toNat).length) := by
  rw [doFutex, if_neg hkey, if_pos rfl, wakeFrom_spec s.table h.once]
  simp

theorem sleepsOn_iff (h : s.Inv) {key : Ptr} (hkey : key ≠ 0#64) {p : Nat} (hp : p ∈ s.table) :
    sleepsOn s.tasks key p = true ↔
      (s.tasks p).state = .blocked ∧ ∃ w ∈ (s.tasks p).wait, w.key = key := by
  have hp0 : p ≠ 0 := fun he => h.nonnull (he ▸ hp)
  have hok := h.tasks p
  simp only [sleepsOn, Bool.and_eq_true, bne_iff_ne, ne_eq, hp0, not_false_eq_true, true_and,
    beq_iff_eq]
  refine and_congr_right fun hblocked => ?_
  cases hw : (s.tasks p).wait with
  | none =>
    rw [hok.idle hw]
    exact ⟨fun he => absurd he.symm hkey, fun he => (nomatch he)⟩
  | some w =>
    rw [(hok.busy w hw).2 hblocked]
    exact ⟨fun he => ⟨w, rfl, he⟩, fun ⟨w', he, hk⟩ => Option.some.inj he ▸ hk⟩

theorem settled_iff (h : s.Inv) (hkey : s.key self uaddr ≠ 0#64) :
    s.Settled self uaddr ↔ ∀ p ∈ s.table,
      (sleepsOn s.tasks (s.key self uaddr) p = true ↔ s.Waits self uaddr p) := by
  refine forall₂_congr fun p hp => ?_
  rw [sleepsOn_iff h hkey hp, Waits, and_congr_right_iff]
  refine forall_congr' fun _ => ?_
  cases (s.tasks p).wait with
  | none => simp
  | some w => simp

theorem waits_blocked {p : Nat} (hp : p ∈ s.waiters self uaddr) :
    p ∈ s.table ∧ s.Waits self uaddr p := by
  obtain ⟨hmem, hw⟩ := mem_filter.mp hp
  exact ⟨hmem, of_decide_eq_true hw⟩

theorem released_ne {t : Task} (h : t.state = .blocked) : released t ≠ t := by
  intro he
  have hrun : (released t).state = .run := rfl
  rw [he, h] at hrun
  cases hrun

/-- Asked to wake everybody, the loop releases whoever sleeps on the word. -/
theorem settled_of_wakesExactly (h : s.Inv) (hkey : s.key self uaddr ≠ 0#64)
    (hwakes : s.WakesExactly self uaddr (BitVec.ofNat 32 maxProcesses)) : s.Settled self uaddr := by
  obtain ⟨freed, hsub, hlength, heq⟩ := hwakes
  have hroom : (s.waiters self uaddr).length ≤ maxProcesses := (length_filter_le _ _).trans h.room
  have hfreed : freed = s.waiters self uaddr := by
    refine hsub.eq_of_length ?_
    rw [hlength]
    exact Nat.min_eq_right hroom
  have hall : picked s.tasks (s.key self uaddr) s.table
      (BitVec.ofNat 32 maxProcesses).toInt.toNat =
        s.table.filter (sleepsOn s.tasks (s.key self uaddr)) :=
    take_of_length_le ((length_filter_le _ _).trans h.room)
  rw [doFutex_wake h hkey, hall, hfreed] at heq
  rw [settled_iff h hkey]
  intro p hp
  have htask := congrFun (congrArg (fun r => Futexes.tasks r.1) heq) p
  simp only [mem_filter, hp, true_and] at htask
  constructor
  · intro hs
    rw [if_pos hs] at htask
    by_cases hw : p ∈ s.waiters self uaddr
    · exact (waits_blocked hw).2
    · rw [if_neg hw] at htask
      exact absurd htask (released_ne ((sleepsOn_iff h hkey hp).mp hs).1)
  · intro hw
    have hin : p ∈ s.waiters self uaddr := mem_filter.mpr ⟨hp, decide_eq_true hw⟩
    rw [if_pos hin] at htask
    by_contra hs
    rw [if_neg hs] at htask
    exact released_ne hw.1 htask.symm

variable {val : BitVec 32}

theorem wakesExactly_of_settled (h : s.Inv) (hkey : s.key self uaddr ≠ 0#64)
    (hs : s.Settled self uaddr) (hval : val.toNat < 2 ^ 31) : s.WakesExactly self uaddr val := by
  have hsame : s.table.filter (sleepsOn s.tasks (s.key self uaddr)) = s.waiters self uaddr := by
    apply filter_congr
    intro p hp
    rw [Bool.eq_iff_iff, (settled_iff h hkey).mp hs p hp, decide_eq_true_iff]
  have hcount : val.toInt.toNat = val.toNat := by
    rw [BitVec.toInt_eq_toNat_of_lt (by omega), Int.toNat_natCast]
  refine ⟨(s.waiters self uaddr).take val.toNat, take_sublist _ _, length_take, ?_⟩
  rw [doFutex_wake h hkey, picked, hsame, hcount]

/-- A count of 2^31 or more is negative as an `int`, and wakes nobody. -/
theorem wakesExactly_of_large (h : s.Inv) (hval : 2 ^ 31 ≤ val.toNat)
    (hkey : s.key self uaddr ≠ 0#64) :
    s.WakesExactly self uaddr val ↔ s.waiters self uaddr = [] := by
  have hneg : val.toInt.toNat = 0 := by
    rw [BitVec.toInt_eq_toNat_cond, if_neg (by omega)]
    omega
  have hnobody : s.doFutex self uaddr futexWake val = (s, .returned 0) := by
    rw [doFutex_wake h hkey, hneg]
    simp [picked]
  constructor
  · rintro ⟨freed, _, hlength, heq⟩
    rw [hnobody, Prod.mk.injEq, Outcome.returned.injEq] at heq
    have hzero : freed.length = 0 := by omega
    rw [hzero] at hlength
    exact length_eq_zero_iff.mp (by omega)
  · intro hnone
    refine ⟨[], nil_sublist _, ?_, ?_⟩
    · rw [hnone, length_nil, Nat.min_zero]
    · rw [hnobody]
      simp

theorem key_ne_zero_of_wakesExactly (h : s.WakesExactly self uaddr val) :
    s.key self uaddr ≠ 0#64 := by
  intro hz
  obtain ⟨freed, _, _, heq⟩ := h
  rw [doFutex, if_pos hz, Prod.mk.injEq, Outcome.returned.injEq] at heq
  omega

/-- After every interleaving, `FUTEX_WAKE` is right for all counts below 2^31 exactly when the
word has not moved under its waiters and nobody else sleeps on its frame, and for any larger
count exactly when there is no waiter. -/
theorem futex_wake_exact_iff (system : System) (crew : Crew) (events : List Event) (self : Nat)
    (uaddr : BitVec 64) :
    ((∀ val : BitVec 32, val.toNat < 2 ^ 31 →
        (after system crew events).WakesExactly self uaddr val) ↔
      (after system crew events).key self uaddr ≠ 0#64 ∧
        (after system crew events).Settled self uaddr) ∧
    ∀ val : BitVec 32, 2 ^ 31 ≤ val.toNat →
      ((after system crew events).WakesExactly self uaddr val ↔
        (after system crew events).key self uaddr ≠ 0#64 ∧
          (after system crew events).waiters self uaddr = []) := by
  have h := inv_after system crew events
  refine ⟨⟨fun hall => ?_, fun ⟨hkey, hs⟩ val hval => wakesExactly_of_settled h hkey hs hval⟩,
    fun val hval => ⟨fun hw => ?_, fun ⟨hkey, hnone⟩ => ?_⟩⟩
  · have hmany := hall (BitVec.ofNat 32 maxProcesses) (by decide)
    have hkey := key_ne_zero_of_wakesExactly hmany
    exact ⟨hkey, settled_of_wakesExactly h hkey hmany⟩
  · have hkey := key_ne_zero_of_wakesExactly hw
    exact ⟨hkey, (wakesExactly_of_large h hval hkey).mp hw⟩
  · exact (wakesExactly_of_large h hval hkey).mpr hnone

theorem returned_of_wakesExactly {uaddr : BitVec 64} (h : s.WakesExactly self uaddr val) :
    (s.doFutex self uaddr futexWake val).2 =
      .returned (min val.toNat (s.waiters self uaddr).length : Nat) := by
  obtain ⟨freed, _, hlength, heq⟩ := h
  rw [heq, hlength]

/-- Sixteen free frames from 0x100000 on, in a memory of zeros. -/
def bare : Machine :=
  ⟨⟨272, 16, fun w => if w = 8 then 0xFFFF#32 else 0, fun _ => 0, fun _ => false, 0, 0⟩,
    fun _ _ => 0, 0x1000#64, fun _ => false, 0, .none⟩

/-- A page directory (at 0x101000) that maps one page, for the address 0x400000. -/
def onePage : System :=
  ⟨bare.allocPage.1.allocPageDirectory.1.mapPageDir 0x101000#64 0x100000#64 0x400000#64 0x7#64,
    fun pd => if pd = 0x101000#64 then some (.image 0x500000#64) else none, none, []⟩

/-- A process (at 16) and its thread (at 32), which waits for the word at 0x400000. -/
def parked : List Event → Futexes :=
  fun rest => after onePage ⟨[16, 32], fun _ => 0x101000#64, by decide, by decide, by decide⟩
    (.futex 32 0x400000#64 futexWait 0#32 :: rest)

/-- The process has forked a child (at 48) and stored to the word since. -/
def moved : List Event :=
  [.fork 16 48 true, .memory 16 (.touch 0x101000#64 0x400000#64 (.write 1#8))]

/-- The child of the process waits for the word in its own address space. -/
def joined : List Event := [.fork 16 48 true, .futex 48 0x400000#64 futexWait 0#32]

theorem not_wakesExactly {l : List Nat} {r : Int}
    (h : s.waiters self uaddr = l ∧ (s.doFutex self uaddr futexWake val).2 = .returned r)
    (hr : r ≠ (min val.toNat l.length : Nat)) : ¬ s.WakesExactly self uaddr val := by
  intro hw
  have heq := returned_of_wakesExactly hw
  rw [h.1, h.2] at heq
  exact hr (Outcome.returned.inj heq)

/-- The thread is not woken by a count of 2^31, nor once the word has moved to a copy of the
page, and two tasks are woken where one of them is in another address space. -/
theorem futex_wake_misses : (parked []).waiters 16 0x400000#64 = [32] ∧
      ¬ (parked []).WakesExactly 16 0x400000#64 0x80000000#32 ∧
    (parked moved).waiters 16 0x400000#64 = [32] ∧
      ¬ (parked moved).WakesExactly 16 0x400000#64 1#32 ∧
    (parked joined).waiters 16 0x400000#64 = [32] ∧
      ((parked joined).doFutex 16 0x400000#64 futexWake 2#32).2 = .returned 2 ∧
      ¬ (parked joined).WakesExactly 16 0x400000#64 2#32 := by
  have hlarge : (parked []).waiters 16 0x400000#64 = [32] ∧
      ((parked []).doFutex 16 0x400000#64 futexWake 0x80000000#32).2 = .returned 0 := by
    decide +kernel
  have hmoved : (parked moved).waiters 16 0x400000#64 = [32] ∧
      ((parked moved).doFutex 16 0x400000#64 futexWake 1#32).2 = .returned 0 := by
    decide +kernel
  have hjoined : (parked joined).waiters 16 0x400000#64 = [32] ∧
      ((parked joined).doFutex 16 0x400000#64 futexWake 2#32).2 = .returned 2 := by
    decide +kernel
  exact ⟨hlarge.1, not_wakesExactly hlarge (by decide), hmoved.1,
    not_wakesExactly hmoved (by decide), hjoined.1, hjoined.2, not_wakesExactly hjoined (by decide)⟩

end Futexes
end Nyx.Futex
