import Nyx.Descriptors.Book
import Nyx.Descriptors.Machine
import Nyx.Process.Leaders

/-! The system calls on the book of handles.

`Io.book` forgets all but the handles in the slots of the table, the sockets in use and the
calls. `Does` says that an operation keeps what the tables rest on (`Sane`: tasks are numbered
and led, handles well formed) and is a sequence of steps of the book. One lemma per system
call composes it from its parts. -/
namespace Nyx.Descriptors
open Nyx.Process Nyx.Process.Kernel Nyx.Lib Function Roster List

namespace Io

def book (s : Io) : Book := ⟨s.kernel.roster.slot, s.nsocks.inUse, s.makers, s.calls⟩

structure Sane (s : Io) : Prop where
  owned : s.kernel.blocks.Owned
  grouped : s.kernel.roster.Grouped
  formed : s.book.WellFormed

def Does (ok : Call → Prop) (may : BitVec 32 → Prop) (s s' : Io) : Prop :=
  s.Sane → s'.Sane ∧ Relation.ReflTransGen (Book.Step ok may) s.book s'.book

/-- Only calls are made: tables and sockets are as before. -/
structure Asks (new : List Call) (s s' : Io) : Prop where
  roster : s'.kernel.roster = s.kernel.roster
  owned : s.kernel.blocks.Owned → s'.kernel.blocks.Owned
  inUse : s'.nsocks.inUse = s.nsocks.inUse
  makers : s'.makers = s.makers
  calls : s'.calls = s.calls ++ new

section
variable {ok : Call → Prop} {may : BitVec 32 → Prop} {s s' s'' : Io} {self p : Nat}
  {i : Fin procMaxFds} {h : BitVec 32} {new new' : List Call}

theorem Does.refl : Does ok may s s := fun hs => ⟨hs, .refl⟩

theorem Does.trans (h : Does ok may s s') (h' : Does ok may s' s'') : Does ok may s s'' := by
  intro hs
  obtain ⟨hs', hsteps⟩ := h hs
  obtain ⟨hs'', hsteps'⟩ := h' hs'
  exact ⟨hs'', hsteps.trans hsteps'⟩

/-- The book says the rest once the tables are known to be sound. -/
theorem Does.of (howned : s.Sane → s'.kernel.blocks.Owned)
    (hgrouped : s.Sane → s'.kernel.roster.Grouped)
    (hsteps : s.Sane → Relation.ReflTransGen (Book.Step ok may) s.book s'.book) :
    Does ok may s s' := fun hs =>
  ⟨⟨howned hs, hgrouped hs, Book.wellFormed_steps (hsteps hs) hs.formed⟩, hsteps hs⟩

/-! ### Calls -/

theorem Asks.trans (h : Asks new s s') (h' : Asks new' s' s'') : Asks (new ++ new') s s'' where
  roster := h'.roster.trans h.roster
  owned := h'.owned ∘ h.owned
  inUse := h'.inUse.trans h.inUse
  makers := h'.makers.trans h.makers
  calls := by rw [h'.calls, h.calls, append_assoc]

theorem Asks.book (h : Asks new s s') : s'.book = {s.book with calls := s.calls ++ new} := by
  simp only [Io.book, h.roster, h.inUse, h.makers, h.calls]

theorem Asks.does (h : Asks new s s') (hok : ∀ c ∈ new, ok c)
    (hproper : ∀ c ∈ new, c.Proper (s.calls ++ new)) : Does ok may s s' := by
  refine .of (fun hs => h.owned hs.owned) (fun hs => h.roster ▸ hs.grouped) fun _ => ?_
  rw [h.book]
  exact .single (.ask hok hproper)

theorem Asks.same (h : Asks [] s s') : Does ok may s s' :=
  h.does (fun _ hc => absurd hc not_mem_nil) fun _ hc => absurd hc not_mem_nil

/-- One call that releases nothing, or a handle that was made. -/
theorem Asks.one {c : Call} (h : Asks [c] s s') (hok : ok c) (hproper : c.Proper (s.calls ++ [c])) :
    Does ok may s s' := h.does (fun _ hc => mem_singleton.mp hc ▸ hok)
    fun _ hc => mem_singleton.mp hc ▸ hproper

theorem asks_refl (s : Io) : Asks [] s s := ⟨rfl, id, rfl, rfl, (append_nil _).symm⟩

theorem asks_log (s : Io) (c : Call) : Asks [c] s (s.log c) := ⟨rfl, id, rfl, rfl, rfl⟩

theorem asks_pipes (s : Io) (pipes : Pipes) : Asks [] s {s with pipes := pipes} :=
  ⟨rfl, id, rfl, rfl, (append_nil _).symm⟩

theorem asks_kernel {k : Kernel} (hroster : k.roster = s.kernel.roster)
    (howned : s.kernel.blocks.Owned → k.blocks.Owned) : Asks [] s {s with kernel := k} :=
  ⟨hroster, howned, rfl, rfl, (append_nil _).symm⟩

theorem asks_state (s : Io) (p : Nat) (st : PState) :
    Asks [] s {s with kernel := s.kernel.modify p fun t => {t with state := st}} := by
  refine asks_kernel (roster_state ..) fun hk => ?_
  rw [blocks_modify]
  · exact hk
  · exact fun _ => rfl
  · exact fun _ => rfl

theorem asks_wake (s : Io) (p : Nat) : Asks [] s (s.wake p) := by
  simp only [wake]
  split
  · exact asks_refl s
  · exact asks_state s p .run

theorem asks_pipeCloseEnd (s : Io) (h : BitVec 32) :
    Asks [.pipe .closeEnd h] s (s.pipeCloseEnd h) :=
  ((asks_pipes s _).trans (asks_wake _ _)).trans (asks_log _ _)

theorem asks_pipeIncref (s : Io) (h : BitVec 32) : Asks [.pipe .incref h] s (s.pipeIncref h) :=
  (asks_pipes s _).trans (asks_log _ _)

theorem asks_nsockApply (s : Io) (sock : BitVec 32) (op : SockOp) :
    Asks [] s {s with nsocks := s.nsocks.nsockApply sock op} :=
  ⟨rfl, id, s.nsocks.inUse_nsockApply sock op, rfl, (append_nil _).symm⟩

/-- What a release does: to the sockets, and to the calls. -/
structure Closes (h : BitVec 32) (s s' : Io) : Prop where
  roster : s'.kernel.roster = s.kernel.roster
  owned : s.kernel.blocks.Owned → s'.kernel.blocks.Owned
  inUse : s'.nsocks.inUse = freed s.nsocks.inUse h
  makers : s'.makers = s.makers
  calls : s'.calls = s.calls ++ [releaseCall h]

theorem Asks.closes (ha : Asks [releaseCall h] s s') (hs : isSocket h = false) : Closes h s s' :=
  ⟨ha.roster, ha.owned, ha.inUse.trans (freed_of_not_socket hs _).symm, ha.makers, ha.calls⟩

theorem closes_closeHandle (s : Io) (h : BitVec 32) : Closes h s (s.closeHandle h) := by
  simp only [closeHandle]
  split
  case isTrue hp =>
    refine Asks.closes ?_ (by rw [isSocket, hp]; rfl)
    rw [releaseCall, if_pos hp]
    exact asks_pipeCloseEnd s h
  case isFalse hp =>
    have hp' : isPipe h = false := Bool.eq_false_iff.mpr hp
    split
    case isTrue hs =>
      have hsock : isSocket h = true := by rw [isSocket, hp', hs]; rfl
      refine ⟨rfl, id, ?_, rfl, ?_⟩
      · funext id
        refine (congrFun (s.nsocks.inUse_nsockClose (ufdSockId h)) id).trans ?_
        rw [freed, hsock, Bool.true_and]
      · rw [releaseCall, if_neg hp, if_pos hs]
        rfl
    case isFalse hs =>
      have hs' : isSock h = false := Bool.eq_false_iff.mpr hs
      refine Asks.closes ?_ (by rw [isSocket, hp', hs']; rfl)
      rw [releaseCall, if_neg hp, if_neg hs]
      exact asks_log s _

/-! ### Slots -/

/-- The caller's group has a leader in the table, whose slots these are. -/
theorem Sane.owner (hs : s.Sane) (hself : self ∈ s.kernel.table) :
    s.fdOwner self ∈ s.kernel.table ∧ (s.kernel.procs (s.fdOwner self)).tgid = 0 :=
  hs.grouped.leader hself

/-- What an assignment to the slot `i` of `p` makes of the slots. -/
theorem slot_assign {r : Roster} (hp : p ∈ r.table) {g : Entry → Entry} {v : Option (BitVec 32)}
    (hi : (if (g (r.entry p)).ufdInuse i = true then some ((g (r.entry p)).ufdHandle i) else none) =
      v)
    (hother : ∀ j, j ≠ i → (g (r.entry p)).ufdInuse j = (r.entry p).ufdInuse j ∧
      (g (r.entry p)).ufdHandle j = (r.entry p).ufdHandle j) :
    (r.modify p g).slot = update r.slot p (update (r.slot p) i v) := by
  have hself : (r.modify p g).entry p = g (r.entry p) := update_self ..
  funext q
  rcases eq_or_ne q p with rfl | hq
  · rw [update_self]
    funext j
    have hmem : q ∈ (r.modify q g).table := hp
    rcases eq_or_ne j i with rfl | hj
    · rw [update_self, ← hi]
      simp only [Roster.slot, hself, hmem, true_and]
    rw [update_of_ne hj]
    simp only [Roster.slot, hself, hmem, hp, true_and, (hother j hj).1, (hother j hj).2]
  · rw [update_of_ne hq]
    have hsame : (r.modify p g).entry q = r.entry q := update_of_ne hq ..
    exact slot_congr Iff.rfl (fun _ => by rw [hsame]) fun _ _ _ => by rw [hsame]

def filled (i : Fin procMaxFds) (inuse : Bool) (handle offset : BitVec 32) (e : Entry) : Entry :=
  { e with
    ufdInuse := Function.update e.ufdInuse i inuse
    ufdHandle := Function.update e.ufdHandle i handle
    ufdOffset := Function.update e.ufdOffset i offset }

/-- A slot emptied. -/
def cleared (i : Fin procMaxFds) (e : Entry) : Entry :=
  {e with ufdInuse := Function.update e.ufdInuse i false}

def sought (i : Fin procMaxFds) (offset : BitVec 32) (e : Entry) : Entry :=
  {e with ufdOffset := Function.update e.ufdOffset i offset}

section
variable (s p i)

theorem roster_setSlot (b : Bool) (h offset : BitVec 32) :
    (s.setSlot p i b h offset).kernel.roster = s.kernel.roster.modify p (filled i b h offset) :=
  s.kernel.roster_assign p fun _ => rfl

theorem roster_clearSlot : (s.clearSlot p i).kernel.roster = s.kernel.roster.modify p (cleared i) :=
  s.kernel.roster_assign p fun _ => rfl

variable (offset : BitVec 32)

theorem roster_setOffset :
    (s.setOffset p i offset).kernel.roster = s.kernel.roster.modify p (sought i offset) :=
  s.kernel.roster_assign p fun _ => rfl

theorem blocks_setSlot (b : Bool) (h offset : BitVec 32) :
    (s.setSlot p i b h offset).kernel.blocks = s.kernel.blocks :=
  s.kernel.blocks_modify p _ (fun _ => rfl) fun _ => rfl

theorem blocks_clearSlot : (s.clearSlot p i).kernel.blocks = s.kernel.blocks :=
  s.kernel.blocks_modify p _ (fun _ => rfl) fun _ => rfl

theorem blocks_setOffset : (s.setOffset p i offset).kernel.blocks = s.kernel.blocks :=
  s.kernel.blocks_modify p _ (fun _ => rfl) fun _ => rfl

end

theorem book_setSlot (hp : p ∈ s.kernel.table) (offset : BitVec 32) :
    (s.setSlot p i true h offset).book = s.book.set p i (some h) := by
  have hslot : (s.kernel.roster.modify p (filled i true h offset)).slot =
      (s.book.set p i (some h)).slot := by
    refine slot_assign hp ?_ fun j hj => ⟨update_of_ne hj .., update_of_ne hj ..⟩
    simp only [filled, update_self, if_true]
  simp only [book, roster_setSlot, hslot]
  rfl

theorem book_clearSlot (hp : p ∈ s.kernel.table) :
    (s.clearSlot p i).book = s.book.set p i none := by
  have hslot : (s.kernel.roster.modify p (cleared i)).slot = (s.book.set p i none).slot := by
    refine slot_assign hp ?_ fun j hj => ⟨update_of_ne hj .., rfl⟩
    simp only [cleared, update_self, Bool.false_eq_true, if_false]
  simp only [book, roster_clearSlot, hslot]
  rfl

theorem book_setOffset (offset : BitVec 32) : (s.setOffset p i offset).book = s.book := by
  have hslot : (s.kernel.roster.modify p (sought i offset)).slot = s.kernel.roster.slot := by
    funext q
    let g := sought i offset
    exact slot_congr Iff.rfl (fun _ => Roster.entry_modify _ p q Entry.ufdInuse (g := g) fun _ => rfl)
      fun _ j _ => congrFun (Roster.entry_modify _ p q Entry.ufdHandle (g := g) fun _ => rfl) j
  simp only [book, roster_setOffset, hslot]
  rfl

theorem fdOwner_of_roster (h : s'.kernel.roster = s.kernel.roster) :
    s'.fdOwner self = s.fdOwner self := congrArg (Roster.tgLeader · self) h

theorem table_of_roster (h : s'.kernel.roster = s.kernel.roster) :
    s'.kernel.table = s.kernel.table := congrArg Roster.table h

theorem tgLeader_assign (r : Roster) {g : Entry → Entry} (hpid : ∀ e, (g e).pid = e.pid)
    (htg : ∀ e, (g e).tgid = e.tgid) : (r.modify p g).tgLeader self = r.tgLeader self := by
  have hpid (q : Nat) := r.entry_modify p q Entry.pid hpid
  have htg (q : Nat) := r.entry_modify p q Entry.tgid htg
  have htable : (r.modify p g).table = r.table := rfl
  simp only [Roster.tgLeader, Roster.findProcess, hpid, htg, htable]

theorem fdOwner_setSlot (b : Bool) (offset : BitVec 32) :
    (s.setSlot p i b h offset).fdOwner self = s.fdOwner self :=
  (congrArg (Roster.tgLeader · self) (roster_setSlot s p i b h offset)).trans
    (tgLeader_assign _ (fun _ => rfl) fun _ => rfl)

theorem fdOwner_clearSlot : (s.clearSlot p i).fdOwner self = s.fdOwner self :=
  (congrArg (Roster.tgLeader · self) (roster_clearSlot s p i)).trans
    (tgLeader_assign _ (fun _ => rfl) fun _ => rfl)

theorem clearSlot_self (s : Io) (p : Nat) (i : Fin procMaxFds) :
    ((s.clearSlot p i).kernel.procs p).ufdInuse i = false := by
  simp only [clearSlot, modify_procs_self, update_self]

theorem setSlot_inuse (s : Io) (p : Nat) (i : Fin procMaxFds) (b : Bool) (h offset : BitVec 32) :
    ((s.setSlot p i b h offset).kernel.procs p).ufdInuse =
      update (s.kernel.procs p).ufdInuse i b := by
  simp only [setSlot, modify_procs_self]

theorem slot_of_inuse (hp : p ∈ s.kernel.table) (hi : (s.kernel.procs p).ufdInuse i = true) :
    s.book.slot p i = some ((s.kernel.procs p).ufdHandle i) := if_pos ⟨hp, hi⟩

theorem slot_of_free (hi : (s.kernel.procs p).ufdInuse i = false) : s.book.slot p i = none := by
  refine if_neg fun h => ?_
  have hin : (s.kernel.procs p).ufdInuse i = true := h.2
  rw [hi] at hin
  cases hin

theorem slot_of_lookup {fd : BitVec 32} (hs : s.Sane) (hself : self ∈ s.kernel.table)
    (hl : s.ufdLookup self fd = some (i, h)) : s.book.slot (s.fdOwner self) i = some h := by
  simp only [ufdLookup] at hl
  split at hl
  · cases hl
  split at hl
  case isTrue hin =>
    injection hl with hl
    injection hl with hi hh
    subst hi hh
    exact slot_of_inuse (hs.owner hself).1 hin
  · cases hl

theorem ufdAlloc_cases (s : Io) (self : Nat) (h : BitVec 32) : s.ufdAlloc self h = (s, none) ∨
    ∃ i, (s.kernel.procs (s.fdOwner self)).ufdInuse i = false ∧
      s.ufdAlloc self h = (s.setSlot (s.fdOwner self) i true h 0, some i) := by
  simp only [ufdAlloc]
  split
  · exact .inl rfl
  case h_2 i hi =>
    have hfree := find?_some hi
    simp only [Bool.and_eq_true, Bool.not_eq_true'] at hfree
    exact .inr ⟨i, hfree.2, rfl⟩

section
variable (hself : self ∈ s.kernel.table) (hp : s.fdOwner self = p)
include hself hp

theorem does_put (hfree : (s.kernel.procs p).ufdInuse i = false)
    (hmade : s.Sane → makeCall h ∈ s.calls ∧ Formed h ∨ ∃ q j, s.book.slot q j = some h)
    (hmay : may h) (offset : BitVec 32) : Does ok may s (s.setSlot p i true h offset) := by
  subst hp
  refine .of (fun hs => ?_) (fun hs => ?_) fun hs => ?_
  · rw [blocks_setSlot]
    exact hs.owned
  · rw [roster_setSlot]
    exact hs.grouped.slots (hs.owner hself).2 (fun _ => rfl) fun _ => rfl
  · rw [book_setSlot (hs.owner hself).1]
    exact .single (.put (slot_of_free hfree) (hmade hs) hmay)

theorem does_offset (i : Fin procMaxFds) (offset : BitVec 32) :
    Does ok may s (s.setOffset p i offset) := by
  subst hp
  refine .of (fun hs => ?_) (fun hs => ?_) fun hs => ?_
  · rw [blocks_setOffset]
    exact hs.owned
  · rw [roster_setOffset]
    exact hs.grouped.slots (hs.owner hself).2 (fun _ => rfl) fun _ => rfl
  · rw [book_setOffset]

omit hself hp in
theorem Closes.book (hp : p ∈ s.kernel.table) (hc : Closes h (s.clearSlot p i) s') :
    s'.book = s.book.release p i h := by
  have hslot : s'.kernel.roster.slot = (s.book.set p i none).slot := by
    rw [hc.roster]
    exact congrArg Book.slot (book_clearSlot hp)
  simp only [Io.book, hslot, hc.inUse, hc.makers, hc.calls]
  rfl

/-- A slot of the caller's table is emptied and its handle released. -/
theorem does_drop (hin : s.Sane → s.book.slot p i = some h)
    (hc : Closes h (s.clearSlot p i) s') : Does ok may s s' := by
  subst hp
  refine .of (fun hs => hc.owned ?_) (fun hs => ?_) fun hs => ?_
  · rw [blocks_clearSlot]
    exact hs.owned
  · rw [hc.roster, roster_clearSlot]
    exact hs.grouped.slots (hs.owner hself).2 (fun _ => rfl) fun _ => rfl
  · rw [hc.book (hs.owner hself).1]
    exact .single (.drop (hin hs))

/-- A handle moves to a free slot of the caller's table. -/
theorem does_shift {j : Fin procMaxFds} (hij : i ≠ j)
    (hin : s.Sane → s.book.slot p i = some h) (hfree : (s.kernel.procs p).ufdInuse j = false)
    (offset : BitVec 32) : Does ok may s ((s.setSlot p j true h offset).clearSlot p i) := by
  subst hp
  refine .of (fun hs => ?_) (fun hs => ?_) fun hs => ?_
  · rw [blocks_clearSlot, blocks_setSlot]
    exact hs.owned
  · rw [roster_clearSlot, roster_setSlot]
    have hset : (s.kernel.roster.modify (s.fdOwner self) (filled j true h offset)).Grouped :=
      hs.grouped.slots (hs.owner hself).2 (fun _ => rfl) fun _ => rfl
    refine hset.slots ?_ (fun _ => rfl) fun _ => rfl
    rw [show (s.kernel.roster.modify (s.fdOwner self) (filled j true h offset)).entry
      (s.fdOwner self) = _ from update_self ..]
    exact (hs.owner hself).2
  · have hp : s.fdOwner self ∈ (s.setSlot (s.fdOwner self) j true h offset).kernel.table :=
      (hs.owner hself).1
    have hbook : ((s.setSlot (s.fdOwner self) j true h offset).clearSlot (s.fdOwner self) i).book =
        (s.book.set (s.fdOwner self) i none).set (s.fdOwner self) j (some h) := by
      rw [book_clearSlot hp, book_setSlot (hs.owner hself).1]
      simp only [Book.set, update_self, update_idem]
      rw [update_comm hij]
    rw [hbook]
    exact .single (.shift (hin hs) (slot_of_free hfree))

end

/-- The handle may also be released before the slot is emptied. -/
theorem Closes.clear (hc : Closes h s s') (p : Nat) (i : Fin procMaxFds) :
    Closes h (s.clearSlot p i) (s'.clearSlot p i) := by
  refine ⟨?_, fun hb => ?_, hc.inUse, hc.makers, hc.calls⟩
  · rw [roster_clearSlot, roster_clearSlot, hc.roster]
  · rw [blocks_clearSlot] at hb ⊢
    exact hc.owned hb

end
end Io
end Nyx.Descriptors
