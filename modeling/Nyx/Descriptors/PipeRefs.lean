import Nyx.Descriptors.Counts
import Nyx.Descriptors.Touches

/-! Every system call keeps the reference counts of pipes.

`Tally hs` is the counts and what they rest on: the blocks of the heap are owned, only leaders
have descriptors, and the pipes count the slots and the handles `hs` that the call at work
holds. -/
namespace Nyx.Descriptors
open Nyx.Process Nyx.Process.Kernel Nyx.Lib Function List

/-! ### Data of pipes -/

theorem Pipe.SameCounts.refl (p : Pipe) : Pipe.SameCounts p p := ⟨rfl, rfl, rfl⟩

theorem Pipe.SameEnds.counts {p q : Pipe} (h : Pipe.SameEnds p q) : Pipe.SameCounts p q :=
  ⟨h.used, h.readRefs, h.writeRefs⟩

theorem Pipe.sameCounts_pass (p : Pipe) (n self : Nat) : Pipe.SameCounts p (p.pass n self).1 := by
  simp only [Pipe.pass]
  split
  · exact (Pipe.sameEnds_drain n p).counts
  split
  · exact .refl p
  · exact ⟨rfl, rfl, rfl⟩

variable (ps : Pipes) (idb : BitVec 32)

theorem sameCounts_update {i : Fin maxPipes} {q : Pipe} (hq : Pipe.SameCounts (ps i) q)
    (id : Fin maxPipes) : Pipe.SameCounts (ps id) (update ps i q id) := by
  rw [update_apply]
  split
  case isTrue he => exact he ▸ hq
  case isFalse => exact .refl _

theorem sameCounts_pipeRead (n self : Nat) (id : Fin maxPipes) :
    Pipe.SameCounts (ps id) ((ps.pipeRead idb n self).1 id) := by
  simp only [Pipes.pipeRead]
  split
  · exact .refl _
  case h_2 i _ =>
    split
    · exact .refl _
    · exact sameCounts_update ps (Pipe.sameCounts_pass _ n self) id

theorem sameCounts_pipeWrite (src : List (BitVec 8)) (id : Fin maxPipes) :
    Pipe.SameCounts (ps id) ((ps.pipeWrite idb src).1 id) := by
  simp only [Pipes.pipeWrite]
  split
  · exact .refl _
  case h_2 i _ =>
    split
    · exact .refl _
    split
    · exact .refl _
    have hpush := Pipe.sameEnds_push src (ps i)
    apply sameCounts_update
    exact ⟨hpush.used, hpush.readRefs, hpush.writeRefs⟩

namespace Io

structure Tally (hs : List (BitVec 32)) (s : Io) : Prop where
  owned : s.kernel.blocks.Owned
  grouped : s.kernel.roster.Grouped
  due : Due hs s.pipes s.kernel.roster.slot

section
variable {hs : List (BitVec 32)} {s s' : Io} {self p : Nat} {i j : Fin procMaxFds} {h : BitVec 32}

section
variable (ht : Tally hs s)
include ht

/-- Nothing changes that counts. -/
theorem Tally.same (hroster : s'.kernel.roster = s.kernel.roster)
    (howned : s.kernel.blocks.Owned → s'.kernel.blocks.Owned) (hpipes : s'.pipes = s.pipes) :
    Tally hs s' := ⟨howned ht.owned, hroster ▸ ht.grouped, hroster ▸ hpipes ▸ ht.due⟩

theorem Tally.log (c : Call) : Tally hs (s.log c) := ht.same rfl id rfl

theorem Tally.kernel {k : Kernel} (hroster : k.roster = s.kernel.roster)
    (howned : s.kernel.blocks.Owned → k.blocks.Owned) : Tally hs {s with kernel := k} :=
  ht.same hroster howned rfl

/-- The data of pipes changes, and somebody is woken. -/
theorem Tally.wake {ps : Pipes} (hsame : ∀ id, Pipe.SameCounts (s.pipes id) (ps id)) (woken : Nat) :
    Tally hs ({s with pipes := ps}.wake woken) := by
  have hasks := asks_wake {s with pipes := ps} woken
  refine ⟨hasks.owned ht.owned, hasks.roster ▸ ht.grouped, ?_⟩
  rw [hasks.roster, wake_pipes]
  exact ht.due.of_pipes hsame

theorem Tally.owner (hself : self ∈ s.kernel.table) :
    s.fdOwner self ∈ s.kernel.table ∧ (s.kernel.procs (s.fdOwner self)).tgid = 0 :=
  ht.grouped.leader hself

theorem Tally.lookup {fd : BitVec 32} (hself : self ∈ s.kernel.table)
    (hl : s.ufdLookup self fd = some (i, h)) :
    s.kernel.roster.slot (s.fdOwner self) i = some h := by
  simp only [ufdLookup] at hl
  split at hl
  · cases hl
  split at hl
  case isTrue hin =>
    injection hl with hl
    injection hl with hi hh
    subst hi hh
    exact slot_of_inuse (ht.owner hself).1 hin
  · cases hl

end

/-! ### Slots -/

section
variable (ht : Tally hs s) (hself : self ∈ s.kernel.table) (hp : s.fdOwner self = p)
include ht hself hp

theorem Tally.grouped_assign {g : Entry → Entry} (hpid : ∀ e, (g e).pid = e.pid)
    (htg : ∀ e, (g e).tgid = e.tgid) : (s.kernel.roster.modify p g).Grouped := by
  subst hp
  exact ht.grouped.slots (ht.owner hself).2 hpid htg

theorem Tally.slot_put (offset : BitVec 32) : (s.setSlot p i true h offset).kernel.roster.slot =
      update s.kernel.roster.slot p (update (s.kernel.roster.slot p) i (some h)) := by
  subst hp
  exact congrArg Book.slot (book_setSlot (ht.owner hself).1 offset)

theorem Tally.slot_take : (s.clearSlot p i).kernel.roster.slot = update s.kernel.roster.slot p
      (update (s.kernel.roster.slot p) i none) := by
  subst hp
  exact congrArg Book.slot (book_clearSlot (ht.owner hself).1)

/-- A slot is filled with a handle that `ps` counts one more of. -/
theorem Tally.put (hfree : (s.kernel.procs p).ufdInuse i = false) {ps : Pipes}
    {hs' : List (BitVec 32)} (hdue : Due (h :: hs') ps s.kernel.roster.slot) (offset : BitVec 32) :
    Tally hs' {s.setSlot p i true h offset with pipes := ps} := by
  refine ⟨?_, ?_, ?_⟩
  · exact blocks_setSlot s p i true h offset ▸ ht.owned
  · show (s.setSlot p i true h offset).kernel.roster.Grouped
    rw [roster_setSlot]
    exact ht.grouped_assign hself hp (fun _ => rfl) fun _ => rfl
  · show Due hs' ps (s.setSlot p i true h offset).kernel.roster.slot
    rw [ht.slot_put hself hp offset]
    exact hdue.put (slot_of_free hfree)

theorem Tally.take (hin : s.kernel.roster.slot p i = some h) : Tally (h :: hs) (s.clearSlot p i) := by
  refine ⟨?_, ?_, ?_⟩
  · exact blocks_clearSlot s p i ▸ ht.owned
  · rw [roster_clearSlot]
    exact ht.grouped_assign hself hp (fun _ => rfl) fun _ => rfl
  · show Due (h :: hs) s.pipes (s.clearSlot p i).kernel.roster.slot
    rw [ht.slot_take hself hp]
    exact ht.due.take hin

theorem Tally.offset (i : Fin procMaxFds) (offset : BitVec 32) :
    Tally hs (s.setOffset p i offset) := by
  refine ⟨?_, ?_, ?_⟩
  · exact blocks_setOffset s p i offset ▸ ht.owned
  · rw [roster_setOffset]
    exact ht.grouped_assign hself hp (fun _ => rfl) fun _ => rfl
  · have hslot : (s.setOffset p i offset).kernel.roster.slot = s.kernel.roster.slot :=
      congrArg Book.slot (book_setOffset offset)
    rw [hslot]
    exact ht.due

end

theorem closeHandle_release (s : Io) (h : BitVec 32) :
    (s.closeHandle h).pipes = s.pipes.release h := by
  simp only [closeHandle, Pipes.release]
  split
  · exact wake_pipes ..
  · split <;> rfl

/-- A handle that is held is closed. -/
theorem Tally.release (ht : Tally (h :: hs) s) (hroster : s'.kernel.roster = s.kernel.roster)
    (howned : s.kernel.blocks.Owned → s'.kernel.blocks.Owned)
    (hpipes : s'.pipes = s.pipes.release h) : Tally hs s' :=
  ⟨howned ht.owned, hroster ▸ ht.grouped, hroster ▸ hpipes ▸ ht.due.release⟩

theorem Tally.close (ht : Tally (h :: hs) s) : Tally hs (s.closeHandle h) :=
  ht.release (closes_closeHandle s h).roster (closes_closeHandle s h).owned (s.closeHandle_release h)

theorem Tally.closeEnd (ht : Tally (h :: hs) s) (hp : isPipe h = true) :
    Tally hs (s.pipeCloseEnd h) := by
  have hclose : s.closeHandle h = s.pipeCloseEnd h := if_pos hp
  exact hclose ▸ ht.close

/-- A handle that is not a pipe end is free to come and go. -/
theorem Tally.plain (hh : isPipe h = false) : Tally (h :: hs) s ↔ Tally hs s :=
  ⟨fun ht => ⟨ht.owned, ht.grouped, (Due.cons_iff hh).mp ht.due⟩,
    fun ht => ⟨ht.owned, ht.grouped, (Due.cons_iff hh).mpr ht.due⟩⟩

/-- A held handle goes into a slot, if there is a free one. -/
theorem Tally.alloc (ht : Tally (h :: hs) s) (hself : self ∈ s.kernel.table) :
    s.ufdAlloc self h = (s, none) ∨
      ∃ i, s.ufdAlloc self h = (s.setSlot (s.fdOwner self) i true h 0, some i) ∧
        Tally hs (s.setSlot (s.fdOwner self) i true h 0) ∧
        s.kernel.roster.slot (s.fdOwner self) i = none ∧
        (s.setSlot (s.fdOwner self) i true h 0).kernel.roster.slot (s.fdOwner self) =
          update (s.kernel.roster.slot (s.fdOwner self)) i (some h) := by
  rcases s.ufdAlloc_cases self h with ha | ⟨i, hfree, ha⟩
  · exact .inl ha
  refine .inr ⟨i, ha, ht.put hself rfl hfree ht.due 0, slot_of_free hfree, ?_⟩
  rw [ht.slot_put hself rfl 0, update_self]

/-! ### Files and data -/

section
variable (ht : Tally [] s) (hself : self ∈ s.kernel.table)
include ht hself

theorem tally_advance (i : Fin procMaxFds) (n : BitVec 32) : Tally [] (s.advance self i n) := by
  simp only [advance]
  split
  · exact ht.offset hself rfl i _
  · exact ht

theorem tally_sysOpen (node : Option Node) (append : Bool) (env : Env) :
    Tally [] (s.sysOpen self node append env).1 := by
  cases node with
  | none => exact ht
  | some n =>
    have hopen : Tally [n.handle] (s.log (.vfs .open n.handle)) :=
      (Tally.plain n.kind.1).mpr (ht.log _)
    simp only [sysOpen]
    rcases hopen.alloc hself with ha | ⟨i, ha, hput, _, _⟩
    · rw [ha]
      exact ((Tally.plain n.kind.1).mp hopen).log _
    rw [ha]
    dsimp only
    split
    · exact (hput.log _).offset hself rfl i _
    · exact hput

variable (fd : BitVec 32)

theorem tally_sysClose : Tally [] (s.sysClose self fd).1 := by
  simp only [sysClose]
  split
  · exact ht
  case h_2 i h hl => exact (ht.take hself rfl (ht.lookup hself hl)).close

theorem tally_sysRead (count : Nat) (env : Env) : Tally [] (s.sysRead self fd count env).1 := by
  simp only [sysRead]
  split
  · exact ht
  case h_2 i h _ =>
    split
    · split
      · exact ht
      have hsame := sameCounts_pipeRead s.pipes (ufdPipeId h) count self
      generalize s.pipes.pipeRead (ufdPipeId h) count self = r at hsame
      obtain ⟨ps, result⟩ := r
      have hread : Tally [] {s.log (.pipe .read h) with pipes := ps} :=
        ⟨ht.owned, ht.grouped, ht.due.of_pipes hsame⟩
      cases result with
      | failed => exact hread
      | bytes data => exact hread
      | parked =>
        have hstate := asks_state {s.log (.pipe .read h) with pipes := ps} self .blocked
        exact hread.same hstate.roster hstate.owned rfl
    · split
      · exact ht
      · split
        · exact ht.log _
        · exact tally_advance (ht.log _) hself i _

theorem tally_sysWrite (src : List (BitVec 8)) (env : Env) :
    Tally [] (s.sysWrite self fd src env).1 := by
  simp only [sysWrite]
  split
  · exact ht
  case h_2 i h _ =>
    split
    · exact ht
    split
    · exact (ht.wake (sameCounts_pipeWrite s.pipes (ufdPipeId h) src) _).log _
    split
    · exact ht.log _
    · exact tally_advance (ht.log _) hself i _

omit hself in
theorem tally_quiet {caller : Option Nat} (h : Quiet caller s s')
    (hcaller : ∀ p ∈ caller, p ∈ s.kernel.table) : Tally [] s' := by
  cases h with
  | keeps hpipes hcores howned => exact ht.same (roster_of_cores hcores) howned hpipes
  | seeks self hself i offset hpipes hkernel =>
    exact (ht.offset (hcaller self hself) rfl i offset).same (congrArg Kernel.roster hkernel)
      (fun hk => hkernel ▸ hk) hpipes

/-! ### Copies of descriptors -/

/-- What `dup2` does with the slot it replaces. -/
theorem tally_vacate (hin : (s.kernel.procs (s.fdOwner self)).ufdInuse j = true)
    {old : BitVec 32} (hold : (s.kernel.procs (s.fdOwner self)).ufdHandle j = old) :
    Tally [] ((if isPipe old then s.pipeCloseEnd old
      else s.log (.vfs .close old)).clearSlot (s.fdOwner self) j) := by
  have hslot := slot_of_inuse (ht.owner hself).1 hin
  rw [hold] at hslot
  have htaken := ht.take hself rfl hslot
  -- The handle is closed before its slot is emptied, which comes to the same.
  split
  case isTrue hp =>
    have hasks := asks_pipeCloseEnd s old
    refine htaken.release ?_ (fun hb => ?_) ?_
    · rw [roster_clearSlot, roster_clearSlot, hasks.roster]
    · rw [blocks_clearSlot] at hb ⊢
      exact hasks.owned hb
    · have hclose : s.closeHandle old = s.pipeCloseEnd old := if_pos hp
      exact hclose ▸ s.closeHandle_release old
  case isFalse hp =>
    exact ((Tally.plain (Bool.eq_false_iff.mpr hp)).mp htaken).same rfl id rfl

omit ht hself in
/-- A copy of a descriptor, with one more reference. -/
theorem Tally.copy {m : Io} (hm : Tally [] m) (hmem : self ∈ m.kernel.table)
    (howner : m.fdOwner self = p) (hin : m.kernel.roster.slot p i = some h)
    (hfree : (m.kernel.procs p).ufdInuse j = false) (hp : isPipe h = true) (offset : BitVec 32) :
    Tally [] {m.setSlot p j true h offset with
      pipes := m.pipes.pipeIncref (ufdPipeId h) (ufdPipeIsWrite h)} :=
  hm.put hmem howner hfree (hm.due.incref hp fun _ _ he => hm.due.live_of_slot hin he) offset

theorem tally_sysDup2 (oldfd newfd : BitVec 32) : Tally [] (s.sysDup2 self oldfd newfd).1 := by
  simp only [sysDup2]
  split
  case h_2 => exact ht
  case h_1 i h j hl hj =>
    split
    · exact ht
    case isFalse hne =>
      have hij : i ≠ j := by
        intro he
        apply hne
        apply BitVec.eq_of_toNat_eq
        rw [← slotOf_val hj, ← lookup_slot hl, he]
      have hheld := ht.lookup hself hl
      generalize hm : (if (s.kernel.procs (s.fdOwner self)).ufdInuse j = true then _ else s) = m
      obtain ⟨htally, hmem, howner, hfree, hkept⟩ : Tally [] m ∧ self ∈ m.kernel.table ∧
          m.fdOwner self = s.fdOwner self ∧ (m.kernel.procs (s.fdOwner self)).ufdInuse j = false ∧
          m.kernel.roster.slot (s.fdOwner self) i = some h := by
        rw [← hm]
        split
        case isFalse hout => exact ⟨ht, hself, rfl, Bool.eq_false_iff.mpr hout, hheld⟩
        case isTrue hin =>
          have htally := tally_vacate ht hself hin rfl
          generalize (s.kernel.procs (s.fdOwner self)).ufdHandle j = old at htally ⊢
          have hroster : (if isPipe old then s.pipeCloseEnd old
              else s.log (.vfs .close old)).kernel.roster = s.kernel.roster := by
            split
            · exact (asks_pipeCloseEnd s old).roster
            · rfl
          generalize (if isPipe old then s.pipeCloseEnd old else s.log (.vfs .close old)) = c
            at htally hroster ⊢
          have hslot : (c.clearSlot (s.fdOwner self) j).kernel.roster.slot =
              (s.clearSlot (s.fdOwner self) j).kernel.roster.slot := by
            rw [roster_clearSlot, roster_clearSlot, hroster]
          refine ⟨htally, ?_, ?_, clearSlot_self c _ j, ?_⟩
          · show self ∈ c.kernel.table
            rw [table_of_roster hroster]
            exact hself
          · rw [fdOwner_clearSlot, fdOwner_of_roster hroster]
          · rw [hslot, ht.slot_take hself rfl, update_self, update_of_ne hij]
            exact hheld
      split
      case isTrue hp => exact (htally.copy hmem howner hkept hfree hp 0).same rfl id rfl
      case isFalse hp =>
        have hplain : isPipe h = false := Bool.eq_false_iff.mpr hp
        have hput := htally.put hmem howner hfree ((Due.cons_iff hplain).mpr htally.due)
          (s.offsetOf self i)
        refine (Tally.plain hplain).mp (hput.take hmem ?_ ?_)
        · exact (fdOwner_setSlot true _).trans howner
        · refine (congrFun (congrFun (htally.slot_put hmem howner _) _) i).trans ?_
          rw [update_self, update_of_ne hij]
          exact hkept

theorem tally_sysDup (oldfd : BitVec 32) : Tally [] (s.sysDup self oldfd).1 := by
  simp only [sysDup]
  split
  · exact ht
  case h_2 i h hl =>
    have hheld := ht.lookup hself hl
    rcases s.ufdAlloc_cases self h with ha | ⟨j, hfree, ha⟩
    · rw [ha]
      exact ht
    rw [ha]
    dsimp only
    generalize hm : (if isPipe h = true then _ else _) = m
    have hcopied : Tally [] m ∧ m.kernel = (s.setSlot (s.fdOwner self) j true h 0).kernel := by
      rw [← hm]
      split
      case isTrue hp => exact ⟨(ht.copy hself rfl hheld hfree hp 0).same rfl id rfl, rfl⟩
      case isFalse hp =>
        have hput := ht.put hself rfl hfree ((Due.cons_iff (Bool.eq_false_iff.mpr hp)).mpr ht.due) 0
        split
        · exact ⟨hput, rfl⟩
        · exact ⟨hput.same rfl id rfl, rfl⟩
    refine hcopied.1.offset ?_ rfl j _
    rw [hcopied.2]
    exact hself

/-! ### Pipes and sockets -/

omit ht hself in
/-- The two ends of a pipe without slots are closed again. -/
theorem Tally.unpipe {m : Io} {r w : BitVec 32} (hm : Tally [r, w] m) (hr : isPipe r = true)
    (hw : isPipe w = true) : Tally [] ((m.pipeCloseEnd r).pipeCloseEnd w) :=
  (hm.closeEnd hr).closeEnd hw

theorem tally_sysPipe (env : Env) : Tally [] (s.sysPipe self env).1 := by
  rcases sysPipe_outcome hself env with he | ⟨ps, id, m, hnew, hm, hout⟩
  · rw [he]
    exact ht
  have hmade : Tally [ufdPipeMake id false, ufdPipeMake id true] m := by
    rw [hm]
    exact ⟨ht.owned, ht.grouped, ht.due.make hnew⟩
  have hmem : self ∈ m.kernel.table := hm ▸ hself
  rcases hout with ⟨i, j, hij, hi, hj, he⟩ | ⟨u, hu, hpipes, he⟩
  · rw [he]
    have hput := hmade.put hmem rfl hi hmade.due 0
    refine hput.put hmem (fdOwner_setSlot true 0) ?_ hput.due 0
    rw [setSlot_inuse, update_of_ne hij.symm]
    exact hj
  · rw [he]
    refine Tally.unpipe ⟨hu.1.owned hmade.owned, hu.2 hmade.grouped, ?_⟩ (pipeMake_kind id false).1
      (pipeMake_kind id true).1
    have hslot : u.kernel.roster.slot = m.kernel.roster.slot := hu.1.slot
    rw [hslot, hpipes]
    exact hmade.due

theorem tally_installSocket (sock : Fin maxSockets) : Tally [] (s.installSocket self sock).1 := by
  have hplain : isPipe (ufdSockMake sock) = false := by
    revert sock
    decide
  simp only [installSocket]
  generalize hs' : Io.log {s with makers := _} _ = s'
  have hmade : Tally [ufdSockMake sock] s' := by
    rw [← hs']
    exact (Tally.plain hplain).mpr (ht.same rfl id rfl)
  have hmem : self ∈ s'.kernel.table := by
    rw [← hs']
    exact hself
  rcases hmade.alloc hmem with ha | ⟨i, ha, hput, _, _⟩
  · rw [ha]
    exact ((Tally.plain hplain).mp hmade).same rfl id rfl
  rw [ha]
  exact hput

theorem tally_sysSocket (type : BitVec 32) (env : Env) : Tally [] (s.sysSocket self type env).1 := by
  simp only [sysSocket]
  split
  · exact ht.same rfl id rfl
  apply tally_installSocket
  · exact ht.same rfl (fun hk => hk) rfl
  · exact hself

theorem tally_sysAccept (child : Option Nat) : Tally [] (s.sysAccept self fd child).1 := by
  simp only [sysAccept]
  split
  · exact ht
  split
  · exact ht
  split
  · exact ht.log _
  · apply tally_installSocket
    · exact ht.same rfl (fun hk => hk) rfl
    · exact hself

/-! ### Deaths and removals -/

end

theorem closing_pipes (hs : List (BitVec 32)) :
    ∀ s : Io, (hs.foldl closeHandle s).pipes = hs.foldl Pipes.release s.pipes := by
  induction hs with
  | nil => exact fun _ => rfl
  | cons h rest ih =>
    intro s
    rw [foldl_cons, foldl_cons, ih, closeHandle_release]

theorem tally_afterClosing (ht : Tally [] s) {f : Kernel → Kernel} (hp : p ∈ s.kernel.table)
    (hf : Retires s.kernel.roster p f) : Tally [] (s.afterClosing p f) := by
  have hc := closesAll_foldl (handles (s.kernel.procs p)) s
  refine ⟨hf.owned _ hc.roster (hc.owned ht.owned), hf.grouped ht.grouped _ hc.roster, ?_⟩
  have htaken := ht.due.takes (p := p) ((nodup_finRange _).filter _) (fun i hi =>
    slot_of_inuse hp (mem_filter.mp hi).2)
  have hslots : (f (s.closing p).kernel).roster.slot = _ :=
    (hf.slot ht.grouped _ hc.roster).trans (s.slot_closed p)
  show Due [] (s.closing p).pipes (f (s.closing p).kernel).roster.slot
  rw [hslots, closing, closing_pipes]
  exact htaken.releases

theorem tally_exit (ht : Tally [] s) (hself : self ∈ s.kernel.table) (code : BitVec 32) :
    Tally [] (s.exit self code) := tally_afterClosing ht hself (retires_exit hself code)

theorem tally_userFault (ht : Tally [] s) (hself : self ∈ s.kernel.table) (sig : BitVec 32)
    (writable : Bool) : Tally [] (s.userFault self sig writable) := by
  have hroster := roster_of_cores (s.kernel.cores_signalDeliverFault self sig writable)
  have howned := s.kernel.diverted_signalDeliverFault self sig writable
  simp only [userFault]
  split
  case h_1 k he =>
    rw [he] at hroster howned
    exact ht.kernel hroster (owned_diverted howned)
  case h_2 k he =>
    rw [he] at hroster howned
    have hmem : self ∈ k.table := by
      rw [show k.table = s.kernel.table from congrArg Roster.table hroster]
      exact hself
    exact tally_exit (ht.kernel hroster (owned_diverted howned)) hmem _

theorem tally_reapEntry (ht : Tally [] s) {k : Nat} (hk : s.kernel.table[k]? = some p) :
    Tally [] (s.reapEntry p k) :=
  tally_afterClosing ht (mem_of_getElem? hk) (retires_reapEntry hk)

theorem tally_reapFrom (turns : Nat) :
    ∀ (s : Io) (k : Nat), Tally [] s → Tally [] (s.reapFrom turns k) := by
  induction turns with
  | zero => exact fun _ _ ht => ht
  | succ turns ih =>
    intro s k ht
    simp only [reapFrom]
    split
    · exact ht
    case h_2 p hk =>
      split
      · exact ih _ k (tally_reapEntry ht hk)
      · exact ih s (k + 1) ht

theorem tally_doWaitpid (ht : Tally [] s) (self : Nat) (wpid options : BitVec 32) :
    Tally [] (s.doWaitpid self wpid options) := by
  simp only [doWaitpid]
  split
  case h_1 zi hzi => exact tally_reapEntry ht (collected_of_findIdx hzi).1
  case h_2 hnone =>
    exact ht.kernel (roster_doWaitpid hnone) fun hb => owned_doWaitpid hb self wpid options

theorem tally_destroyProcess (ht : Tally [] s) (pid : BitVec 64) :
    Tally [] (s.destroyProcess pid) := by
  simp only [destroyProcess]
  split
  · exact ht
  case h_2 p hp =>
    split
    case isTrue hm =>
      exact ht.kernel (roster_destroyProcess hp hm) fun hb => owned_destroyProcess hb pid
    case isFalse =>
      have hmem := mem_of_find?_eq_some hp
      exact tally_afterClosing ht hmem (retires_reapUserProcess hmem)

/-! ### Births -/

/-- An operation that frees nobody and shares nothing. -/
theorem tally_change (ht : Tally [] s) {op : Op} (hop : op.releases = false)
    (hfork : ∀ self dir block stack bufs, op ≠ .fork self dir block stack bufs)
    (hcaller : ∀ p ∈ op.caller, p ∈ s.kernel.table) (hleft : s.kernel.nextPid.toNat < 2 ^ 32) :
    Tally [] {s with kernel := Process.perform s.kernel op} := by
  refine ⟨owned_perform hcaller ht.owned, grouped_perform ht.owned ht.grouped hop hcaller hleft, ?_⟩
  rw [slot_perform ht.owned hop hfork]
  exact ht.due

theorem increfs_pipes (hs : List (BitVec 32)) : ∀ s : Io, (hs.foldl pipeIncref s).pipes =
      hs.foldl (fun ps h => ps.pipeIncref (ufdPipeId h) (ufdPipeIsWrite h)) s.pipes := by
  induction hs with
  | nil => exact fun _ => rfl
  | cons h rest ih => exact fun s => ih (s.pipeIncref h)

/-- The child of a fork has an end for every reference that the fork took. -/
theorem tally_born (ht : Tally [] s) (hself : self ∈ s.kernel.table) {k : Kernel} {dir : Nat}
    (howned : k.blocks.Owned) (hgrouped : k.roster.Grouped)
    (hborn : Born s.kernel k p (forkedProc (s.kernel.procs self) dir
      (s.kernel.nextPid.setWidth 32)).core (pipeIncrefs (s.kernel.procs self))) :
    Tally [] ((shared (s.kernel.procs self)).foldl pipeIncref {s with kernel := k}) := by
  have hasks := asks_pipeIncrefs (shared (s.kernel.procs self)) {s with kernel := k}
  refine ⟨hasks.owned howned, hasks.roster ▸ hgrouped, ?_⟩
  rw [hasks.roster, increfs_pipes]
  rw [slot_born hborn]
  have hshared : ∀ h ∈ shared (s.kernel.procs self), isPipe h = true ∧
      ∃ p i, s.kernel.roster.slot p i = some h := by
    intro h hh
    obtain ⟨i, hi, rfl⟩ := mem_map.mp hh
    have hinherits := (mem_filter.mp hi).2
    rw [inheritsFd, Bool.and_eq_true] at hinherits
    exact ⟨hinherits.2, self, i, slot_of_inuse hself hinherits.1⟩
  have hfilled := (ht.due.increfs hshared).puts (p := p) ((nodup_finRange _).filter _)
    fun i => congrFun (Roster.slot_outside hborn.outside) i
  have hslots : (fun i => if i ∈ (finRange procMaxFds).filter
      (inheritsFd (s.kernel.procs self)) then some ((s.kernel.procs self).ufdHandle i) else none) =
      fun i => if inheritsFd (s.kernel.procs self) i = true then
        some (if inheritsFd (s.kernel.procs self) i = true then (s.kernel.procs self).ufdHandle i
          else 0) else none := by
    funext i
    by_cases hi : inheritsFd (s.kernel.procs self) i = true <;> simp [hi]
  rw [hslots] at hfilled
  exact hfilled

/-- `do_fork` with a child in the table, or without a record for it. -/
def Forks (k k' : Kernel) : Prop := k'.table ≠ k.table ∨ k'.nextPid = k.nextPid

instance (k k' : Kernel) : Decidable (Forks k k') := inferInstanceAs (Decidable (_ ∨ _))

theorem tally_doFork (ht : Tally [] s) (hself : self ∈ s.kernel.table)
    (hleft : s.kernel.nextPid.toNat < 2 ^ 32) {dir block stack : Nat}
    {bufs : Fin procMaxVmas → Nat}
    (hforks : Forks s.kernel (s.kernel.doFork self dir block stack bufs).1) :
    Tally [] (s.doFork self dir block stack bufs) := by
  have hcaller : ∀ p ∈ (Op.fork self dir block stack bufs).caller, p ∈ s.kernel.table :=
    fun p hp => Option.mem_some.mp hp ▸ hself
  have howned := owned_doFork ht.owned hself dir block stack bufs
  have hgrouped : (s.kernel.doFork self dir block stack bufs).1.roster.Grouped :=
    grouped_perform ht.owned ht.grouped rfl hcaller hleft
  have houtcome := doFork_outcome ht.owned self dir block stack bufs
  simp only [doFork]
  generalize (s.kernel.doFork self dir block stack bufs).1 = k at *
  rcases houtcome with (hsame | ⟨q, _, new, hspent⟩) | ⟨q, dir', hborn⟩
  · have hnext : k.nextPid = s.kernel.nextPid := congrArg Cores.nextPid hsame
    rw [if_pos hnext]
    exact ht.kernel (roster_of_cores hsame) fun _ => howned
  · have htable : k.table = s.kernel.table := congrArg Cores.table hspent
    have hnext : k.nextPid = s.kernel.nextPid + 1 := congrArg Cores.nextPid hspent
    rcases hforks with hne | hsame
    · exact absurd htable hne
    · exact absurd (hnext.symm.trans hsame) (by simp)
  · have hnext : k.nextPid = s.kernel.nextPid + 1 := congrArg Cores.nextPid hborn.cores
    rw [if_neg (by simp [hnext])]
    exact tally_born ht hself howned hgrouped hborn

def Succeeds (s : Io) : Sys → Prop
  | .process (.fork self dir block stack bufs) =>
    Forks s.kernel (s.kernel.doFork self dir block stack bufs).1
  | _ => True

theorem tally_process (ht : Tally [] s) {op : Op} (hcaller : ∀ p ∈ op.caller, p ∈ s.kernel.table)
    (hleft : s.kernel.nextPid.toNat < 2 ^ 32) (hok : s.Succeeds (.process op)) :
    Tally [] (s.process op) := by
  cases op with
  | exit self code => exact tally_exit ht (hcaller self rfl) code
  | userFault self => exact tally_userFault ht (hcaller self rfl) ..
  | reapZombies => exact tally_reapFrom _ s 0 ht
  | waitpid => exact tally_doWaitpid ht ..
  | destroyProcess pid => exact tally_destroyProcess ht pid
  | fork self => exact tally_doFork ht (hcaller self rfl) hleft hok
  | mmap self length prot file block readable =>
    exact tally_quiet ht (quiet_sysMmap length prot none file.off block readable _) hcaller
  | _ => exact tally_change ht rfl nofun hcaller hleft

theorem tally_step (ht : Tally [] s) {sys : Sys} (hleft : s.kernel.nextPid.toNat < 2 ^ 32)
    (hok : s.Succeeds sys) : Tally [] (s.step sys) := by
  simp only [step]
  split
  case isFalse => exact ht
  case isTrue hcaller =>
    by_cases hq : isQuiet sys = true
    · exact tally_quiet ht (quiet_perform hq) hcaller
    cases sys with
    | process op => exact tally_process ht hcaller hleft hok
    | «open» self => exact tally_sysOpen ht (hcaller self rfl) ..
    | read self => exact tally_sysRead ht (hcaller self rfl) ..
    | write self => exact tally_sysWrite ht (hcaller self rfl) ..
    | close self fd => exact tally_sysClose ht (hcaller self rfl) fd
    | dup2 self => exact tally_sysDup2 ht (hcaller self rfl) ..
    | dup self => exact tally_sysDup ht (hcaller self rfl) ..
    | pipe self env => exact tally_sysPipe ht (hcaller self rfl) env
    | socket self => exact tally_sysSocket ht (hcaller self rfl) ..
    | accept self => exact tally_sysAccept ht (hcaller self rfl) ..
    | _ => exact absurd rfl hq

end
end Io
end Nyx.Descriptors
