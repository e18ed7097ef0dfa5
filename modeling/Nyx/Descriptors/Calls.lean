import Nyx.Descriptors.Simulation

/-! Every system call on the book of handles. -/
namespace Nyx.Descriptors
open Nyx.Process Nyx.Process.Kernel Nyx.Lib Function List

/-! ### Kinds of handles -/

theorem and_flag_of_lt {h : BitVec 32} {b : Nat} (hlt : h.toNat < 2 ^ b) :
    h &&& BitVec.twoPow 32 b = 0#32 := by
  rw [BitVec.and_twoPow, if_neg]
  rw [BitVec.getLsbD, Nat.testBit_lt_two_pow hlt]
  exact Bool.false_ne_true

theorem Node.kind (n : Node) : isPipe n.handle = false ∧ isSock n.handle = false := by
  have hpipe : n.handle &&& ufdPipeFlag = 0#32 := and_flag_of_lt (b := 30) (n.low.trans (by decide))
  have hsock : n.handle &&& ufdSockFlag = 0#32 := and_flag_of_lt (b := 29) n.low
  rw [isPipe, isSock, hpipe, hsock]
  exact ⟨rfl, rfl⟩

theorem Node.makeCall (n : Node) : makeCall n.handle = .vfs .open n.handle := by
  rw [Descriptors.makeCall, n.kind.1, n.kind.2]
  rfl

theorem Node.formed (n : Node) : Formed n.handle := fun _ => n.kind.2

theorem Node.not_socket (n : Node) : isSocket n.handle = false := by
  rw [isSocket, n.kind.1, n.kind.2]
  rfl

theorem pipeMake_kind (id : Fin maxPipes) (w : Bool) :
    isPipe (ufdPipeMake id w) = true ∧ isSock (ufdPipeMake id w) = false := by
  revert id w
  decide

theorem pipeMake_makeCall (id : Fin maxPipes) (w : Bool) :
    makeCall (ufdPipeMake id w) = .pipe .make (ufdPipeMake id w) := by
  rw [makeCall, if_pos (pipeMake_kind id w).1]

theorem not_socket_of_pipe {h : BitVec 32} (hp : isPipe h = true) : isSocket h = false := by
  rw [isSocket, hp]
  rfl

namespace Io
variable {ok : Call → Prop} {may : BitVec 32 → Prop} {s : Io} {self : Nat}

/-- What `dup2` does before it fills the slot `j` of the table `p`. -/
structure Vacated (s : Io) (caller p : Nat) (j : Fin procMaxFds) (m : Io) : Prop where
  mem : caller ∈ m.kernel.table
  owner : m.fdOwner caller = p
  free : (m.kernel.procs p).ufdInuse j = false
  kept : s.Sane → ∀ i h, i ≠ j → s.book.slot p i = some h → m.book.slot p i = some h

/-- Nothing but unused slots changed. -/
structure Unseen (s m : Io) : Prop where
  owned : s.kernel.blocks.Owned → m.kernel.blocks.Owned
  grouped : s.Sane → m.kernel.roster.Grouped
  slot : m.book.slot = s.book.slot
  nsocks : m.nsocks = s.nsocks
  makers : m.makers = s.makers
  calls : m.calls = s.calls

theorem modify_modify (r : Roster) (p : Nat) (g g' : Entry → Entry) :
    (r.modify p g).modify p g' = r.modify p (g' ∘ g) := by
  refine Roster.ext rfl rfl rfl rfl ?_
  show update (update r.entry p (g (r.entry p))) p
    (g' (update r.entry p (g (r.entry p)) p)) = update r.entry p _
  rw [update_self, update_idem]
  rfl

theorem unseen_modify {m : Io} (hself : self ∈ s.kernel.table) {g : Entry → Entry}
    (hroster : m.kernel.roster = s.kernel.roster.modify (s.fdOwner self) g)
    (hpid : ∀ e, (g e).pid = e.pid) (htg : ∀ e, (g e).tgid = e.tgid)
    (hin : (g (s.kernel.roster.entry (s.fdOwner self))).ufdInuse =
      (s.kernel.procs (s.fdOwner self)).ufdInuse)
    (hh : ∀ i, (s.kernel.procs (s.fdOwner self)).ufdInuse i = true →
      (g (s.kernel.roster.entry (s.fdOwner self))).ufdHandle i =
        (s.kernel.procs (s.fdOwner self)).ufdHandle i)
    (hblocks : m.kernel.blocks = s.kernel.blocks) (hnsocks : m.nsocks = s.nsocks)
    (hmakers : m.makers = s.makers) (hcalls : m.calls = s.calls) :
    Unseen s m ∧ (s.kernel.roster.Grouped → m.kernel.roster.Grouped) := by
  have hgrouped (hs : s.kernel.roster.Grouped) : m.kernel.roster.Grouped := by
    rw [hroster]
    exact hs.slots (hs.leader hself).2 hpid htg
  refine ⟨⟨fun hb => hblocks ▸ hb, fun hs => hgrouped hs.grouped, ?_, hnsocks, hmakers, hcalls⟩,
    hgrouped⟩
  · funext q
    show m.kernel.roster.slot q = s.kernel.roster.slot q
    rw [hroster]
    rcases eq_or_ne q (s.fdOwner self) with rfl | hq
    · have hp : (s.kernel.roster.modify (s.fdOwner self) g).entry (s.fdOwner self) = _ :=
        update_self ..
      exact Roster.slot_congr Iff.rfl (fun _ => by rw [hp]; exact hin)
        fun _ i hi => by rw [hp]; exact hh i hi
    · have hsame : (s.kernel.roster.modify (s.fdOwner self) g).entry q = s.kernel.roster.entry q :=
        update_of_ne hq ..
      exact Roster.slot_congr Iff.rfl (fun _ => by rw [hsame]) fun _ _ _ => by rw [hsame]

/-! ### Files and data -/

section
variable (hok : ∀ c : Call, c.Sound → ok c) (hmay : ∀ h, isSocket h = false → may h)
  (hself : self ∈ s.kernel.table)
include hok hself

omit hok in
theorem does_advance (i : Fin procMaxFds) (n : BitVec 32) : Does ok may s (s.advance self i n) := by
  simp only [advance]
  split
  · exact does_offset hself rfl i _
  · exact .refl

include hmay in
theorem does_sysOpen (node : Option Node) (append : Bool) (env : Env) :
    Does ok may s (s.sysOpen self node append env).1 := by
  cases node with
  | none => exact .refl
  | some n =>
    have hopen : Does ok may s (s.log (.vfs .open n.handle)) :=
      (asks_log s _).one (hok _ n.kind) trivial
    have hmem : Call.vfs .open n.handle ∈ (s.log (.vfs .open n.handle)).calls :=
      mem_append_right _ (mem_singleton_self _)
    refine hopen.trans ?_
    simp only [sysOpen]
    rcases (s.log (.vfs .open n.handle)).ufdAlloc_cases self n.handle with h | ⟨i, hfree, h⟩
    · rw [h]
      exact (asks_log _ _).one (hok _ n.kind) (mem_append_left _ hmem)
    rw [h]
    have hput : Does ok may (s.log (.vfs .open n.handle))
        ((s.log (.vfs .open n.handle)).setSlot (s.fdOwner self) i true n.handle 0) :=
      does_put (s := s.log (.vfs .open n.handle)) hself rfl hfree
        (fun _ => .inl ⟨n.makeCall ▸ hmem, n.formed⟩) (hmay _ n.not_socket) 0
    cases append with
    | false => exact hput
    | true =>
      refine hput.trans (.trans ((asks_log _ (.vfs .fsize n.handle)).one (hok _ n.kind) trivial) ?_)
      apply does_offset
      · exact hself
      · rfl

variable (fd : BitVec 32) {i : Fin procMaxFds} (env : Env)

theorem does_sysRead (count : Nat) (env : Env) : Does ok may s (s.sysRead self fd count env).1 := by
  simp only [sysRead]
  split
  · exact .refl
  case h_2 i h hl =>
    split
    case isTrue hp =>
      split
      · exact .refl
      have hlog : Asks [.pipe .read h] s (s.log (.pipe .read h)) := asks_log s _
      split
      · exact (hlog.trans (asks_pipes _ _)).one (hok _ hp) trivial
      · exact (hlog.trans (asks_pipes _ _)).one (hok _ hp) trivial
      case h_3 pipes _ =>
        have hpark := (hlog.trans (asks_pipes _ pipes)).trans (asks_state _ self .blocked)
        exact hpark.one (hok _ hp) trivial
    case isFalse hp =>
      have hp' : isPipe h = false := Bool.eq_false_iff.mpr hp
      split
      · exact .refl
      split
      case isTrue hs => exact (asks_log s _).one (hok (.nsock .recv h) ⟨hp', hs⟩) trivial
      case isFalse hs =>
        have hs' : isSock h = false := Bool.eq_false_iff.mpr hs
        have hread : Does ok may s (s.log (.vfs .pread h)) :=
          (asks_log s _).one (hok (.vfs .pread h) ⟨hp', hs'⟩) trivial
        refine hread.trans ?_
        apply does_advance
        exact hself

theorem does_sysWrite (src : List (BitVec 8)) (env : Env) :
    Does ok may s (s.sysWrite self fd src env).1 := by
  simp only [sysWrite]
  split
  · exact .refl
  case h_2 i h hl =>
    split
    · exact .refl
    split
    case isTrue hp =>
      exact (((asks_pipes s _).trans (asks_wake _ _)).trans (asks_log _ _)).one
        (hok (.pipe .write h) hp) trivial
    case isFalse hp =>
      have hp' : isPipe h = false := Bool.eq_false_iff.mpr hp
      split
      case isTrue hs => exact (asks_log s _).one (hok (.nsock .send h) ⟨hp', hs⟩) trivial
      case isFalse hs =>
        have hs' : isSock h = false := Bool.eq_false_iff.mpr hs
        have hwrite : Does ok may s (s.log (.vfs .pwrite h)) :=
          (asks_log s _).one (hok (.vfs .pwrite h) ⟨hp', hs'⟩) trivial
        refine hwrite.trans ?_
        apply does_advance
        exact hself

omit hok in
theorem does_sysClose : Does ok may s (s.sysClose self fd).1 := by
  simp only [sysClose]
  split
  · exact .refl
  case h_2 i h hl =>
    exact does_drop hself rfl (fun hs => slot_of_lookup hs hself hl) (closes_closeHandle _ h)

omit hok hself in
/-- `SYS_FSIZE` asks the VFS whatever the descriptor is. -/
theorem does_sysFsize (hfd : ∀ i h, s.ufdLookup self fd = some (i, h) → ok (.vfs .fsize h)) :
    Does ok may s (s.sysFsize self fd env).1 := by
  simp only [sysFsize]
  split
  · exact .refl
  case h_2 i h hl => exact (asks_log s _).one (hfd i h hl) trivial

omit hself in
theorem does_sysFstat : Does ok may s (s.sysFstat self fd env).1 := by
  simp only [sysFstat]
  split
  · exact .refl
  case h_2 i h hl =>
    split
    · exact .refl
    case isFalse hflags =>
      rw [Bool.or_eq_true, not_or, Bool.not_eq_true, Bool.not_eq_true] at hflags
      exact (asks_log s _).one (hok (.vfs .fstat h) hflags) trivial

theorem does_sysLseek (offset : BitVec 64) (whence : BitVec 32) (env : Env) :
    Does ok may s (s.sysLseek self fd offset whence env).1 := by
  simp only [sysLseek]
  split
  · exact .refl
  case h_2 i h hl =>
    split
    · exact .refl
    case isFalse hflags =>
      rw [Bool.or_eq_true, not_or, Bool.not_eq_true, Bool.not_eq_true] at hflags
      split
      case isFalse => exact .refl
      case isTrue =>
        -- Only a seek from the end asks for the size.
        have hsize : Does ok may s (if whence = 2#32 then s.log (.vfs .fsize h) else s) ∧
            self ∈ (if whence = 2#32 then s.log (.vfs .fsize h) else s).kernel.table := by
          split
          · exact ⟨(asks_log s _).one (hok (.vfs .fsize h) hflags) trivial, hself⟩
          · exact ⟨.refl, hself⟩
        generalize (if whence = 2#32 then s.log (.vfs .fsize h) else s) = asked at hsize ⊢
        generalize (if whence = 0#32 then 0#64 else _) = base
        split
        · exact hsize.1
        · exact hsize.1.trans (does_offset hsize.2 rfl i _)

/-! ### Copies of descriptors -/

omit hok hself in
theorem lookup_slot {fd : BitVec 32} {h : BitVec 32} (hl : s.ufdLookup self fd = some (i, h)) :
    i.val = fd.toNat := by
  simp only [ufdLookup, slotOf] at hl
  split at hl
  · cases hl
  case h_2 j hj =>
    split at hl
    · injection hl with hl
      injection hl with hi _
      split at hj
      · injection hj with hj
        rw [← hi, ← hj]
      · cases hj
    · cases hl

omit hok hself in
theorem slotOf_val {fd : BitVec 32} {j : Fin procMaxFds} (hj : slotOf fd = some j) :
    j.val = fd.toNat := by
  simp only [slotOf] at hj
  split at hj
  · injection hj with hj
    rw [← hj]
  · cases hj

omit hok in
theorem vacated_drop {j : Fin procMaxFds} {old : BitVec 32} {m : Io} (hc : Closes old s m) :
    Vacated s self (s.fdOwner self) j (m.clearSlot (s.fdOwner self) j) := by
  have hc' := hc.clear (s.fdOwner self) j
  refine ⟨?_, ?_, ?_, fun hs i h hij hi => ?_⟩
  · show self ∈ m.kernel.table
    rw [table_of_roster hc.roster]
    exact hself
  · rw [fdOwner_clearSlot, fdOwner_of_roster hc.roster]
  · exact clearSlot_self m _ j
  · rw [hc'.book (hs.owner hself).1]
    refine (s.book.set_slot ..).trans ?_
    rw [if_neg fun he => hij he.2, hi]

include hmay in
/-- `dup2` releases what it replaces through the pipe layer or the VFS, so it must not be a
socket. -/
theorem does_sysDup2 (oldfd newfd : BitVec 32)
    (hnew : ∀ i h j, s.ufdLookup self oldfd = some (i, h) → slotOf newfd = some j →
      newfd ≠ oldfd → (s.kernel.procs (s.fdOwner self)).ufdInuse j = true →
        isSocket ((s.kernel.procs (s.fdOwner self)).ufdHandle j) = false) :
    Does ok may s (s.sysDup2 self oldfd newfd).1 := by
  simp only [sysDup2]
  split
  case h_2 => exact .refl
  case h_1 i h j hl hj =>
    split
    · exact .refl
    case isFalse hne =>
      have hij : i ≠ j := by
        intro he
        apply hne
        apply BitVec.eq_of_toNat_eq
        rw [← slotOf_val hj, ← lookup_slot hl, he]
      have hheld (hs : s.Sane) := slot_of_lookup hs hself hl
      -- The slot `j` is released if it is in use.
      obtain ⟨m, hm, hdoes, hvac⟩ : ∃ m, (if (s.kernel.procs (s.fdOwner self)).ufdInuse j = true then
            (if isPipe ((s.kernel.procs (s.fdOwner self)).ufdHandle j) = true then
              s.pipeCloseEnd ((s.kernel.procs (s.fdOwner self)).ufdHandle j)
            else s.log (.vfs .close ((s.kernel.procs (s.fdOwner self)).ufdHandle j))).clearSlot
              (s.fdOwner self) j
          else s) = m ∧ Does ok may s m ∧ Vacated s self (s.fdOwner self) j m := by
        refine ⟨_, rfl, ?_⟩
        split
        case isFalse hfree =>
          exact ⟨.refl, hself, rfl, Bool.eq_false_iff.mpr hfree, fun _ _ _ _ hi => hi⟩
        case isTrue hin =>
          have hsock := hnew i h j hl hj hne hin
          have hslot (hs : s.Sane) := slot_of_inuse (hs.owner hself).1 hin
          generalize (s.kernel.procs (s.fdOwner self)).ufdHandle j = old at hsock hslot
          have hc : Closes old s (if isPipe old = true then s.pipeCloseEnd old
              else s.log (.vfs .close old)) := by
            split
            case isTrue hp =>
              refine Asks.closes ?_ hsock
              rw [releaseCall, if_pos hp]
              exact asks_pipeCloseEnd s old
            case isFalse hp =>
              have hs' : isSock old = false := by
                rwa [isSocket, Bool.eq_false_iff.mpr hp, Bool.not_false, Bool.true_and] at hsock
              refine Asks.closes ?_ hsock
              rw [releaseCall, if_neg hp, hs']
              exact asks_log s _
          exact ⟨does_drop hself rfl hslot (hc.clear _ j), vacated_drop hself hc⟩
      rw [hm]
      intro hs
      have hkept := hvac.kept hs i h hij (hheld hs)
      refine (hdoes.trans ?_) hs
      split
      case isTrue hp =>
        have hincref : Does ok may m (m.pipeIncref h) :=
          (asks_pipeIncref m h).one (hok (.pipe .incref h) hp) trivial
        exact hincref.trans (does_put (s := m.pipeIncref h) hvac.mem hvac.owner hvac.free
          (fun _ => .inr ⟨_, i, hkept⟩) (hmay h (not_socket_of_pipe hp)) 0)
      case isFalse hp =>
        exact does_shift hvac.mem hvac.owner hij (fun _ => hkept) hvac.free _

/-- A copy counts as one more reference of a pipe end or a file, not of a socket. -/
theorem does_sysDup (oldfd : BitVec 32)
    (hold : ∀ i h, s.ufdLookup self oldfd = some (i, h) → may h) :
    Does ok may s (s.sysDup self oldfd).1 := by
  simp only [sysDup]
  split
  · exact .refl
  case h_2 i h hl =>
    rcases s.ufdAlloc_cases self h with ha | ⟨j, hfree, ha⟩
    · rw [ha]
      exact .refl
    rw [ha]
    have hput : Does ok may s (s.setSlot (s.fdOwner self) j true h 0) :=
      does_put hself rfl hfree (fun hs => .inr ⟨_, i, slot_of_lookup hs hself hl⟩) (hold i h hl) 0
    refine hput.trans ?_
    have howner : (s.setSlot (s.fdOwner self) j true h 0).fdOwner self = s.fdOwner self :=
      fdOwner_setSlot true 0
    have hmem : self ∈ (s.setSlot (s.fdOwner self) j true h 0).kernel.table := hself
    dsimp only
    generalize s.setSlot (s.fdOwner self) j true h 0 = m at howner hmem ⊢
    -- The copy's reference is counted in its layer, if that counts.
    have hcount : Does ok may m (if isPipe h = true then m.pipeIncref h
          else if isSock h = true then m else m.log (.vfs .dup h)) ∧
        (if isPipe h = true then m.pipeIncref h
          else if isSock h = true then m else m.log (.vfs .dup h)).kernel = m.kernel := by
      split
      case isTrue hp =>
        exact ⟨(asks_pipeIncref m h).one (hok (.pipe .incref h) hp) trivial, rfl⟩
      case isFalse hp =>
        split
        · exact ⟨.refl, rfl⟩
        case isFalse hs =>
          exact ⟨(asks_log m _).one (hok (.vfs .dup h)
            ⟨Bool.eq_false_iff.mpr hp, Bool.eq_false_iff.mpr hs⟩) trivial, rfl⟩
    generalize (if isPipe h = true then m.pipeIncref h
      else if isSock h = true then m else m.log (.vfs .dup h)) = m' at hcount ⊢
    refine hcount.1.trans (does_offset ?_ rfl j _)
    rw [hcount.2]
    exact hmem

/-! ### Pipes and sockets -/

omit hok in
theorem unseen_one (h : BitVec 32) (hi : (s.kernel.procs (s.fdOwner self)).ufdInuse i = false) :
    let m := (s.setSlot (s.fdOwner self) i true h 0).clearSlot (s.fdOwner self) i
    Unseen s m ∧ (s.kernel.roster.Grouped → m.kernel.roster.Grouped) := by
  refine unseen_modify (g := cleared i ∘ filled i true h 0) hself ?_ (fun _ => rfl) (fun _ => rfl)
    ?_ (fun k hk => ?_) ?_ rfl rfl rfl
  · rw [roster_clearSlot, roster_setSlot, modify_modify]
  · show update (update (s.kernel.procs (s.fdOwner self)).ufdInuse i true) i false = _
    rw [update_idem, ← hi, update_eq_self]
  · exact update_of_ne (fun he => by rw [he, hi] at hk; cases hk) ..
  · rw [blocks_clearSlot, blocks_setSlot]

omit hok in
theorem unseen_two {i j : Fin procMaxFds} (h h' : BitVec 32)
    (hi : (s.kernel.procs (s.fdOwner self)).ufdInuse i = false)
    (hj : (s.kernel.procs (s.fdOwner self)).ufdInuse j = false) :
    let m := (((s.setSlot (s.fdOwner self) i true h 0).setSlot (s.fdOwner self) j true h' 0).clearSlot
      (s.fdOwner self) i).clearSlot (s.fdOwner self) j
    Unseen s m ∧ (s.kernel.roster.Grouped → m.kernel.roster.Grouped) := by
  refine unseen_modify (g := cleared j ∘ cleared i ∘ filled j true h' 0 ∘ filled i true h 0) hself ?_
    (fun _ => rfl) (fun _ => rfl) ?_ (fun k hk => ?_) ?_ rfl rfl rfl
  · rw [roster_clearSlot, roster_clearSlot, roster_setSlot, roster_setSlot, modify_modify,
      modify_modify, modify_modify]
    rfl
  · funext k
    show update (update (update (update
      (s.kernel.procs (s.fdOwner self)).ufdInuse i true) j true) i false) j false k = _
    simp only [update_apply]
    split
    case isTrue hk => rw [hk, hj]
    case isFalse =>
      split
      case isTrue hk => rw [hk, hi]
      case isFalse => rfl
  · have hki : k ≠ i := fun he => by rw [he, hi] at hk; cases hk
    have hkj : k ≠ j := fun he => by rw [he, hj] at hk; cases hk
    exact (update_of_ne hkj ..).trans (update_of_ne hki ..)
  · rw [blocks_clearSlot, blocks_clearSlot, blocks_setSlot, blocks_setSlot]

omit hself in
/-- The two ends of a pipe that found no slots are closed again. -/
theorem does_unpipe {m : Io} (hm : Unseen s m) {r w : BitVec 32} (hr : isPipe r = true)
    (hw : isPipe w = true) (hmade : Call.pipe .make r ∈ s.calls)
    (hmade' : Call.pipe .make w ∈ s.calls) :
    Does ok may s ((m.pipeCloseEnd r).pipeCloseEnd w) := by
  have hasks := (asks_pipeCloseEnd m r).trans (asks_pipeCloseEnd (m.pipeCloseEnd r) w)
  refine .of (fun hs => hasks.owned (hm.owned hs.owned)) (fun hs => hasks.roster ▸ hm.grouped hs)
    fun _ => ?_
  have hbook : ((m.pipeCloseEnd r).pipeCloseEnd w).book =
      {s.book with calls := s.calls ++ [.pipe .closeEnd r, .pipe .closeEnd w]} := by
    have hslot : m.kernel.roster.slot = s.kernel.roster.slot := hm.slot
    rw [hasks.book]
    simp only [book, hslot, hm.nsocks, hm.makers, hm.calls, singleton_append]
  rw [hbook]
  refine .single (.ask (fun c hc => ?_) fun c hc => ?_)
  · rcases mem_pair.mp hc with rfl | rfl
    · exact hok _ hr
    · exact hok _ hw
  · rcases mem_pair.mp hc with rfl | rfl
    · exact mem_append_left _ hmade
    · exact mem_append_left _ hmade'

omit hok hself in
theorem Unseen.refl (s : Io) : Unseen s s := ⟨id, fun hs => hs.grouped, rfl, rfl, rfl, rfl⟩

/-- The state in which `SYS_PIPE` looks for slots. -/
def piped (s : Io) (ps : Pipes) (id : Fin maxPipes) : Io :=
  ({s with pipes := ps}.log (.pipe .make (ufdPipeMake id false))).log
    (.pipe .make (ufdPipeMake id true))

omit hok in
/-- Both ends get slots, or both are closed again. -/
theorem sysPipe_outcome : (s.sysPipe self env).1 = s ∨
    ∃ ps id m, s.pipes.pipeNew = (ps, some id) ∧ m = s.piped ps id ∧
      ((∃ i j, i ≠ j ∧ (m.kernel.procs (m.fdOwner self)).ufdInuse i = false ∧
          (m.kernel.procs (m.fdOwner self)).ufdInuse j = false ∧
          (s.sysPipe self env).1 = (m.setSlot (m.fdOwner self) i true (ufdPipeMake id false)
            0).setSlot (m.fdOwner self) j true (ufdPipeMake id true) 0) ∨
        ∃ u, (Unseen m u ∧ (m.kernel.roster.Grouped → u.kernel.roster.Grouped)) ∧
          u.pipes = m.pipes ∧ (s.sysPipe self env).1 =
            (u.pipeCloseEnd (ufdPipeMake id false)).pipeCloseEnd (ufdPipeMake id true)) := by
  simp only [sysPipe]
  split
  · exact .inl rfl
  case h_2 ps id hnew =>
    refine .inr ⟨ps, id, _, hnew, rfl, ?_⟩
    have hmem : self ∈ (s.piped ps id).kernel.table := hself
    simp only [← piped.eq_def]
    generalize s.piped ps id = m at hmem ⊢
    generalize ufdPipeMake id false = r
    generalize ufdPipeMake id true = w
    rcases m.ufdAlloc_cases self r with ha | ⟨i, hi, ha⟩
    · simp only [ha]
      rcases m.ufdAlloc_cases self w with hb | ⟨j, hj, hb⟩
      · simp only [hb, Option.isSome_none, Bool.false_eq_true, false_and, if_false]
        exact .inr ⟨_, ⟨.refl _, fun hg => hg⟩, rfl, rfl⟩
      simp only [hb, Option.isSome_none, Bool.false_eq_true, false_and, if_false, fdOwner_setSlot]
      exact .inr ⟨_, unseen_one hmem _ hj, rfl, rfl⟩
    · simp only [ha]
      rcases (m.setSlot (m.fdOwner self) i true r 0).ufdAlloc_cases self w with hb | ⟨j, hj, hb⟩
      · simp only [hb, Option.isSome_none, Bool.false_eq_true, false_and, and_false, if_false,
          fdOwner_setSlot]
        exact .inr ⟨_, unseen_one hmem _ hi, rfl, rfl⟩
      simp only [hb, Option.isSome_some, true_and, fdOwner_setSlot, fdOwner_clearSlot]
      rw [fdOwner_setSlot, setSlot_inuse] at hj
      have hij : i ≠ j := by
        rintro rfl
        rw [update_self] at hj
        cases hj
      rw [update_of_ne hij.symm] at hj
      split
      · exact .inl ⟨i, j, hij, hi, hj, rfl⟩
      · exact .inr ⟨_, unseen_two hmem _ _ hi hj, rfl, rfl⟩

include hmay in
theorem does_sysPipe : Does ok may s (s.sysPipe self env).1 := by
  rcases sysPipe_outcome hself env with he | ⟨ps, id, m, -, hm, hout⟩
  · rw [he]
    exact .refl
  have hr := pipeMake_kind id false
  have hw := pipeMake_kind id true
  have hmake : Does ok may s m := by
    rw [hm]
    refine (((asks_pipes s ps).trans (asks_log _ _)).trans (asks_log _ _)).does
      (fun c hc => ?_) fun c hc => ?_
    all_goals
      rcases mem_pair.mp hc with rfl | rfl
    · exact hok _ hr.1
    · exact hok _ hw.1
    · trivial
    · trivial
  have hmade : Call.pipe .make (ufdPipeMake id false) ∈ m.calls ∧
      Call.pipe .make (ufdPipeMake id true) ∈ m.calls := by
    simp [hm, piped, log]
  have hmem : self ∈ m.kernel.table := hm ▸ hself
  refine hmake.trans ?_
  rcases hout with ⟨i, j, hij, hi, hj, he⟩ | ⟨u, hu, -, he⟩
  · rw [he]
    refine .trans (does_put hmem rfl hi (fun _ => .inl ⟨?_, fun _ => hr.2⟩)
      (hmay _ (not_socket_of_pipe hr.1)) 0) (does_put (s := m.setSlot _ i true _ 0) hmem
        (fdOwner_setSlot true 0) ?_ (fun _ => .inl ⟨?_, fun _ => hw.2⟩)
        (hmay _ (not_socket_of_pipe hw.1)) 0)
    · exact (pipeMake_makeCall id false).symm ▸ hmade.1
    · rw [setSlot_inuse, update_of_ne hij.symm]
      exact hj
    · exact (pipeMake_makeCall id true).symm ▸ hmade.2
  · rw [he]
    exact does_unpipe hok hu.1 hr.1 hw.1 hmade.1 hmade.2

omit hok in
/-- A socket call made for a descriptor with the socket flag is made for a socket. -/
theorem socket_of_lookup {fd : BitVec 32} {h : BitVec 32} (hs : s.Sane)
    (hl : s.ufdLookup self fd = some (i, h)) (hsock : isSock h = true) :
    isPipe h = false ∧ isSock h = true := by
  refine ⟨?_, hsock⟩
  cases hp : isPipe h with
  | false => rfl
  | true =>
    have hform := hs.formed _ i h (slot_of_lookup hs hself hl) hp
    rw [hsock] at hform
    cases hform

theorem does_onSocket (op : SockOp) (ready : Bool) (result : BitVec 32) :
    Does ok may s (s.onSocket self fd op ready result).1 := by
  simp only [onSocket]
  split
  · exact .refl
  case h_2 i h hl =>
    split
    · exact .refl
    case isFalse hs =>
      rw [not_or, Bool.not_eq_false] at hs
      intro hsane
      have hkind := socket_of_lookup hself hsane hl hs.1
      exact (((asks_nsockApply s _ op).trans (asks_log _ _)).one (hok (.nsock .control h) hkind)
        trivial) hsane

/-- A socket that was just created goes into a slot, or is closed again. -/
theorem does_installSocket {id : Fin maxSockets} (hid : s.nsocks.inUse id = false)
    {nsocks : Nsocks} (hnsocks : nsocks.inUse = update s.nsocks.inUse id true) :
    Does ok may s (({s with nsocks := nsocks} : Io).installSocket self id).1 := by
  have hkind := isSocket_make id
  rw [isSocket, Bool.and_eq_true, Bool.not_eq_true'] at hkind
  have hrecord : Book.Step ok may s.book
      {s.book with makers := update s.makers id (s.fdOwner self)} := .record hid _
  simp only [installSocket]
  generalize hm : Io.log _ (.nsock .make (ufdSockMake id)) = m
  have hkernel : m.kernel = s.kernel := by rw [← hm]; rfl
  have hmakers : m.makers = update s.makers id (s.fdOwner self) := by rw [← hm]; rfl
  have hinUse : m.nsocks.inUse = update s.nsocks.inUse id true := by rw [← hm, ← hnsocks]; rfl
  have hcalls : m.calls = s.calls ++ [.nsock .make (ufdSockMake id)] := by rw [← hm]; rfl
  have howner : m.fdOwner self = s.fdOwner self := by rw [fdOwner, hkernel]; rfl
  clear hm
  rcases m.ufdAlloc_cases self (ufdSockMake id) with ha | ⟨i, hi, ha⟩
  · rw [ha]
    -- No slot: the socket is in use for as long as the call takes.
    have hclosed : (m.nsocks.nsockClose (ufdSockId (ufdSockMake id))).inUse = s.nsocks.inUse := by
      rw [m.nsocks.inUse_nsockClose, hinUse, ufdSockId_make]
      funext j
      rcases eq_or_ne j id with rfl | hj
      · simp [hid]
      have hne : BitVec.ofNat 32 id.val ≠ BitVec.ofNat 32 j.val := by
        intro he
        have hsame : ufdSockMake j = ufdSockMake id := by rw [ufdSockMake, ufdSockMake, he]
        exact hj (ufdSockMake_inj hsame)
      simp [hj, hne]
    refine .of (fun hs => ?_) (fun hs => ?_) fun _ => ?_
    · show m.kernel.blocks.Owned
      rw [hkernel]
      exact hs.owned
    · show m.kernel.roster.Grouped
      rw [hkernel]
      exact hs.grouped
    · have hbook : (m.nsockClose (ufdSockMake id)).book =
          { s.book with
            makers := update s.makers id (s.fdOwner self)
            calls := s.calls ++ [.nsock .make (ufdSockMake id), .nsock .close (ufdSockMake id)] } := by
        simp only [book, nsockClose, log, hkernel, hmakers, hclosed, hcalls, append_assoc,
          singleton_append]
      rw [hbook]
      refine .tail (.single hrecord) (.ask (fun c hc => ?_) fun c hc => ?_)
      · rcases mem_pair.mp hc with rfl | rfl
        · exact hok _ hkind
        · exact hok _ hkind
      · rcases mem_pair.mp hc with rfl | rfl
        · trivial
        · exact mem_append_right _ (mem_cons_self ..)
  · rw [ha, howner]
    rw [howner, hkernel] at hi
    refine .of (fun hs => ?_) (fun hs => ?_) fun hs => ?_
    · rw [blocks_setSlot, hkernel]
      exact hs.owned
    · rw [roster_setSlot, hkernel]
      exact hs.grouped.slots (hs.owner hself).2 (fun _ => rfl) fun _ => rfl
    · have hmem : s.fdOwner self ∈ m.kernel.table := by
        rw [hkernel]
        exact (hs.owner hself).1
      have hbook : (m.setSlot (s.fdOwner self) i true (ufdSockMake id) 0).book = Book.create
            { s.book with
              makers := update s.makers id (s.fdOwner self)
              calls := s.calls ++ [.nsock .make (ufdSockMake id)] } (s.fdOwner self) i id := by
        rw [book_setSlot hmem]
        simp only [book, Book.create, Book.set, hkernel, hmakers, hinUse, hcalls]
      rw [hbook]
      refine .tail (.tail (.single hrecord) (.ask (fun c hc => ?_) fun c hc => ?_)) (.socket ?_ hid ?_ ?_)
      · rw [mem_singleton.mp hc]
        exact hok _ hkind
      · rw [mem_singleton.mp hc]
        trivial
      · exact slot_of_free hi
      · exact mem_append_right _ (mem_singleton_self _)
      · exact update_self ..

theorem does_sysSocket (type : BitVec 32) (env : Env) :
    Does ok may s (s.sysSocket self type env).1 := by
  simp only [sysSocket]
  rcases s.nsocks.nsockCreate_spec type env.heap with ⟨hnone, hin⟩ | ⟨id, hsome, hid, hin⟩
  · split
    case h_1 nsocks he =>
      rw [he] at hin
      exact Asks.same ⟨rfl, id, hin, rfl, (append_nil _).symm⟩
    case h_2 nsocks id he =>
      rw [he] at hnone
      cases hnone
  · split
    case h_1 nsocks he =>
      rw [he] at hsome
      cases hsome
    case h_2 nsocks id' he =>
      rw [he] at hsome hin
      injection hsome with hsome
      subst hsome
      exact does_installSocket hok hself hid hin

theorem does_sysAccept (child : Option Nat) : Does ok may s (s.sysAccept self fd child).1 := by
  simp only [sysAccept]
  split
  · exact .refl
  case h_2 i h hl =>
    split
    · exact .refl
    case isFalse hs =>
      rw [Bool.not_eq_false] at hs
      intro hsane
      have hlog : Does ok may s (s.log (.nsock .accept h)) :=
        (asks_log s _).one (hok (.nsock .accept h) (socket_of_lookup hself hsane hl hs)) trivial
      refine (hlog.trans ?_) hsane
      rcases (s.log (.nsock .accept h)).nsocks.nsockAccept_spec (ufdSockId h) child with
        hnone | ⟨id, hsome, hid, hin⟩
      · split
        · exact .refl
        case h_2 nsocks id he =>
          rw [he] at hnone
          cases hnone
      · split
        · exact .refl
        case h_2 nsocks id' he =>
          rw [he] at hsome hin
          injection hsome with hsome
          subst hsome
          apply does_installSocket hok
          · exact hself
          · exact hid
          · exact hin

end

/-! ### Polling and files -/

section
variable (hok : ∀ c : Call, c.Sound → ok c)

include hok in
theorem does_sysPoll (fds : List (BitVec 32 × Bool)) : ∀ s : Io, Does ok may s (sysPoll self fds s) := by
  induction fds with
  | nil => exact fun s => .refl
  | cons first rest ih =>
    intro s
    refine .trans ?_ (ih _)
    split
    · exact .refl
    case h_2 i h hl =>
      split
      case isTrue hp =>
        split
        · exact (asks_log s _).one (hok (.pipe .readable h) hp) trivial
        · exact .refl
      case isFalse hp =>
        split
        case isTrue hs =>
          rw [Bool.and_eq_true] at hs
          exact (asks_log s _).one
            (hok (.nsock .readable h) ⟨Bool.eq_false_iff.mpr hp, hs.1⟩) trivial
        case isFalse => exact .refl

include hok in
/-- A file the kernel opens and closes by itself. -/
theorem does_visit {s' : Io} (n : Node) (fns : List Vfs)
    (h : Asks (.vfs .open n.handle :: fns.map (.vfs · n.handle)) s s') : Does ok may s s' := by
  refine h.does (fun c hc => ?_) fun c hc => ?_
  · rcases mem_cons.mp hc with rfl | hc
    · exact hok _ n.kind
    · obtain ⟨fn, _, rfl⟩ := mem_map.mp hc
      exact hok _ n.kind
  · rcases mem_cons.mp hc with rfl | hc
    · trivial
    obtain ⟨fn, _, rfl⟩ := mem_map.mp hc
    cases fn with
    | close => exact mem_append_right _ (mem_cons_self ..)
    | _ => trivial

include hok in
theorem does_readFile (node : Option Node) : Does ok may s (s.readFile node) := by
  cases node with
  | none => exact .refl
  | some n =>
    refine does_visit hok n [.fsize, .fdata, .close] ?_
    exact (((asks_log s _).trans (asks_log _ _)).trans (asks_log _ _)).trans (asks_log _ _)

include hok in
theorem does_sysGetdents (node : Option Node) (turns : Nat) :
    Does ok may s (s.sysGetdents node turns) := by
  cases node with
  | none => exact .refl
  | some n =>
    refine does_visit hok n (replicate turns .readdir ++ [.close]) ⟨rfl, id, rfl, rfl, ?_⟩
    simp [sysGetdents]

/-- A mapping of a file asks the VFS whenever the descriptor is not a pipe end. -/
theorem does_sysMmap (length : BitVec 64) (prot : BitVec 32) (fd : Option (BitVec 32))
    (off : BitVec 32) (block : Nat) (readable : Bool) (env : Env)
    (hfd : ∀ a ∈ fd, ∀ i h, s.ufdLookup self a = some (i, h) → isPipe h = false →
      ok (.vfs .fsize h) ∧ ok (.vfs .pread h)) :
    Does ok may s (s.sysMmap self length prot fd off block readable env).1 := by
  have hmap (m : Io) (hm : m.kernel = s.kernel) (file : FileArg) : Does ok may m
      {m with kernel := (s.kernel.doMmap self length prot file block readable).1} := by
    refine (asks_kernel ?_ fun hb => ?_).same
    · rw [hm]
      exact roster_of_cores (blind_cores.doMmap s.kernel self length prot file block readable)
    · rw [hm] at hb
      exact owned_doMmap hb self length prot file block readable
  cases fd with
  | none => exact hmap s rfl ⟨0, 0, off⟩
  | some fd =>
    simp only [sysMmap]
    split
    · exact .refl
    case h_2 i h hl =>
      split
      · exact .refl
      case isFalse hp =>
        obtain ⟨hsize, hread⟩ := hfd fd rfl i h hl (Bool.eq_false_iff.mpr hp)
        have hask : Does ok may s (s.log (.vfs .fsize h)) := (asks_log s _).one hsize trivial
        split
        · have hpread : Does ok may (s.log (.vfs .fsize h))
              ((s.log (.vfs .fsize h)).log (.vfs .pread h)) := (asks_log _ _).one hread trivial
          refine (hask.trans hpread).trans (hmap ((s.log (.vfs .fsize h)).log (.vfs .pread h)) rfl _)
        · exact hask.trans (hmap (s.log (.vfs .fsize h)) rfl _)

end
end Io
end Nyx.Descriptors
