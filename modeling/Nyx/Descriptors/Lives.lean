import Nyx.Descriptors.Calls

/-! Births, deaths and removals of tasks on the book of handles. -/
namespace Nyx.Descriptors
open Nyx.Process Nyx.Process.Kernel Nyx.Lib Roster List

namespace Io
variable {ok : Call → Prop} {may : BitVec 32 → Prop} {s s' : Io} {self p : Nat}

/-! ### Closing a table -/

/-- What releasing these handles does: to the sockets, and to the calls. -/
structure ClosesAll (hs : List (BitVec 32)) (s s' : Io) : Prop where
  roster : s'.kernel.roster = s.kernel.roster
  owned : s.kernel.blocks.Owned → s'.kernel.blocks.Owned
  inUse : s'.nsocks.inUse = hs.foldl freed s.nsocks.inUse
  makers : s'.makers = s.makers
  calls : s'.calls = s.calls ++ hs.map releaseCall

theorem closesAll_foldl (hs : List (BitVec 32)) :
    ∀ s : Io, ClosesAll hs s (hs.foldl closeHandle s) := by
  induction hs with
  | nil => exact fun s => ⟨rfl, id, rfl, rfl, (append_nil _).symm⟩
  | cons h rest ih =>
    intro s
    have hfirst := closes_closeHandle s h
    have hrest := ih (s.closeHandle h)
    refine ⟨hrest.roster.trans hfirst.roster, hrest.owned ∘ hfirst.owned, ?_,
      hrest.makers.trans hfirst.makers, ?_⟩
    · rw [foldl_cons, foldl_cons, hrest.inUse, hfirst.inUse]
    · rw [foldl_cons, hrest.calls, hfirst.calls, append_assoc]
      rfl

/-- A function of the process layer that leaves the slots of the closed table `p`. -/
structure Retires (r : Roster) (p : Nat) (f : Kernel → Kernel) : Prop where
  owned : ∀ k, k.roster = r → k.blocks.Owned → (f k).blocks.Owned
  grouped : r.Grouped → ∀ k, k.roster = r → (f k).roster.Grouped
  slot : r.Grouped → ∀ k, k.roster = r → (f k).roster.slot = (r.close p).slot

theorem slot_closed (s : Io) (p : Nat) : (s.kernel.roster.close p).slot =
    Function.update s.kernel.roster.slot p fun i =>
      if i ∈ (finRange procMaxFds).filter (s.kernel.procs p).ufdInuse then none
      else s.kernel.roster.slot p i := by
  funext q
  rw [slot_close, Function.update_apply]
  split
  case isTrue =>
    funext i
    split
    case isTrue => rfl
    case isFalse hout =>
      have hfree : (s.kernel.procs p).ufdInuse i = false := by
        refine Bool.eq_false_iff.mpr fun hin => hout ?_
        exact mem_filter.mpr ⟨mem_finRange i, hin⟩
      exact (slot_of_free hfree).symm
  case isFalse => rfl

theorem does_afterClosing {f : Kernel → Kernel} (hp : p ∈ s.kernel.table)
    (hf : Retires s.kernel.roster p f) : Does ok may s (s.afterClosing p f) := by
  have hc : ClosesAll (handles (s.kernel.procs p)) s (s.closing p) := closesAll_foldl _ s
  refine .of (fun hs => ?_) (fun hs => hf.grouped hs.grouped _ hc.roster) fun hs => ?_
  · exact hf.owned _ hc.roster (hc.owned hs.owned)
  have hbook : (s.afterClosing p f).book =
      { s.book.give p fun i =>
          if i ∈ (finRange procMaxFds).filter (s.kernel.procs p).ufdInuse then none
          else s.book.slot p i with
        inUse := (handles (s.kernel.procs p)).foldl freed s.book.inUse
        calls := s.book.calls ++ (handles (s.kernel.procs p)).map releaseCall } := by
    have hclosed := (hf.slot hs.grouped _ hc.roster).trans (s.slot_closed p)
    simp only [book, afterClosing, hclosed, hc.inUse, hc.makers, hc.calls, Book.give]
  rw [hbook]
  refine Book.drops p _ _ s.book ((nodup_finRange _).filter _) fun i hi => ?_
  exact slot_of_inuse hp (mem_filter.mp hi).2

section
variable {r : Roster}

theorem retires_exit (hself : self ∈ r.table) (code : BitVec 32) :
    Retires r self (·.exit self code true) := by
  have hroster (k : Kernel) (hk : k.roster = r) : (k.exit self code true).roster = r.close self := by
    rw [roster_exit, if_pos rfl, hk]
  refine ⟨fun k _ hb => owned_quiet (k.resources_exit self code true) hb, ?_, ?_⟩
  · intro hg k hk
    rw [hroster k hk]
    exact hg.close hself
  · intro _ k hk
    rw [hroster k hk]

theorem retires_reapEntry {i : Nat} (hi : r.table[i]? = some p) :
    Retires r p (·.reapEntry p i) := by
  have hroster (k : Kernel) (hk : k.roster = r) : (k.reapEntry p i).roster =
      ((r.close p).reassign p).reap i := by
    rw [roster_reapEntry, hk]
  have htable (k : Kernel) (hk : k.roster = r) : k.table[i]? = some p := by
    rw [show k.table = r.table from congrArg Roster.table hk]
    exact hi
  refine ⟨fun k hk hb => owned_reapEntry hb (htable k hk), ?_, ?_⟩
  · intro hg k hk
    rw [hroster k hk]
    have hstep : Roster.Step Roster.PidLeft Roster.Alone r _ := .reap hi
    exact grouped_step hg hstep
  · intro hg k hk
    rw [hroster k hk]
    funext q
    exact slot_reap hg hi q

theorem retires_reapUserProcess (hp : p ∈ r.table) : Retires r p (·.reapUserProcess p) := by
  have htable (k : Kernel) (hk : k.roster = r) : k.table = r.table := congrArg Roster.table hk
  have hroster (k : Kernel) (hk : k.roster = r) : (k.reapUserProcess p).roster =
      ((r.close p).remove (r.table.idxOf p)).reassign p := by
    rw [roster_reapUserProcess k p (htable k hk ▸ hp), hk, htable k hk]
  refine ⟨fun k hk hb => owned_reapUserProcess hb (htable k hk ▸ hp), ?_, ?_⟩
  · intro hg k hk
    rw [hroster k hk]
    have hstep : Roster.Step Roster.PidLeft Roster.Alone r _ := .free hp
    exact grouped_step hg hstep
  · intro hg k hk
    rw [hroster k hk]
    funext q
    exact slot_free hg hp q

end

theorem does_exit (hself : self ∈ s.kernel.table) (code : BitVec 32) :
    Does ok may s (s.exit self code) :=
  does_afterClosing hself (retires_exit hself code)

theorem does_userFault (hself : self ∈ s.kernel.table) (sig : BitVec 32) (writable : Bool) :
    Does ok may s (s.userFault self sig writable) := by
  have hroster := roster_of_cores (s.kernel.cores_signalDeliverFault self sig writable)
  have howned := s.kernel.diverted_signalDeliverFault self sig writable
  simp only [userFault]
  split
  case h_1 k he =>
    rw [he] at hroster howned
    exact (asks_kernel hroster (owned_diverted howned)).same
  case h_2 k he =>
    rw [he] at hroster howned
    have hmark : Does ok may s {s with kernel := k} :=
      (asks_kernel hroster (owned_diverted howned)).same
    have hmem : self ∈ ({s with kernel := k} : Io).kernel.table := by
      have htable : k.table = s.kernel.table := congrArg Roster.table hroster
      rw [htable]
      exact hself
    exact hmark.trans (does_exit hmem _)

theorem does_reapEntry {i : Nat} (hi : s.kernel.table[i]? = some p) :
    Does ok may s (s.reapEntry p i) :=
  does_afterClosing (mem_of_getElem? hi) (retires_reapEntry hi)

theorem does_reapUserProcess (hp : p ∈ s.kernel.table) :
    Does ok may s (s.afterClosing p (·.reapUserProcess p)) :=
  does_afterClosing hp (retires_reapUserProcess hp)

theorem does_reapFrom (turns : Nat) : ∀ (s : Io) (i : Nat), Does ok may s (s.reapFrom turns i) := by
  induction turns with
  | zero => exact fun s i => .refl
  | succ turns ih =>
    intro s i
    simp only [reapFrom]
    split
    · exact .refl
    case h_2 p hi =>
      split
      · exact (does_reapEntry hi).trans (ih _ i)
      · exact ih s (i + 1)

theorem roster_doWaitpid {k : Kernel} {wpid options : BitVec 32}
    (hnone : k.table.findIdx? (fun p => k.awaited self wpid p && (k.procs p).state == .zombie) =
      none) : (k.doWaitpid self wpid options).1.roster = k.roster := by
  simp only [Kernel.doWaitpid, hnone]
  split
  · rfl
  split
  · exact roster_modify _ _ fun _ => rfl
  split
  · rfl
  · exact roster_modify _ _ fun _ => rfl

theorem does_doWaitpid (self : Nat) (wpid options : BitVec 32) :
    Does ok may s (s.doWaitpid self wpid options) := by
  simp only [doWaitpid]
  split
  case h_1 zi hzi => exact does_reapEntry (collected_of_findIdx hzi).1
  case h_2 hnone =>
    exact (asks_kernel (roster_doWaitpid hnone) fun hb => owned_doWaitpid hb self wpid options).same

theorem roster_destroyProcess {k : Kernel} {pid : BitVec 64}
    (hp : k.table.find? (fun p => p != 0 && (k.procs p).pid.setWidth 64 == pid) = some p)
    (hm : (k.procs p).schedManaged = true ∧ (k.procs p).state ≠ .zombie) :
    (k.destroyProcess pid).roster = k.roster := by
  simp only [Kernel.destroyProcess, hp, if_pos hm]
  refine (roster_wakeWaiters ..).trans (roster_modify _ _ ?_)
  exact fun _ => rfl

theorem does_destroyProcess (pid : BitVec 64) : Does ok may s (s.destroyProcess pid) := by
  simp only [destroyProcess]
  split
  · exact .refl
  case h_2 p hp =>
    split
    case isTrue hm =>
      exact (asks_kernel (roster_destroyProcess hp hm) fun hb => owned_destroyProcess hb pid).same
    case isFalse => exact does_reapUserProcess (mem_of_find?_eq_some hp)

/-! ### Births -/

/-- A task that enters the table has at most pipe ends that the table holds already. -/
theorem newcomer_slots {r : Roster} {new : Entry} {calls : List FdCall}
    (hnew : r.Newcomer new calls) {i : Fin procMaxFds} {h : BitVec 32}
    (hi : (if new.ufdInuse i = true then some (new.ufdHandle i) else none) = some h) :
    isPipe h = true ∧ ∃ q j, r.slot q j = some h := by
  split at hi
  case isFalse => cases hi
  case isTrue hin =>
    injection hi with hi
    cases hnew with
    | fresh ppid dir => cases hin
    | cloned hself => cases hin
    | @forked self hself dir =>
      have hshared : (r.entry self).inheritsFd i = true := hin
      have hh : (r.entry self).ufdHandle i = h := by
        rw [← hi]
        exact (if_pos hshared).symm
      rw [Entry.inheritsFd, Bool.and_eq_true] at hshared
      refine ⟨hh ▸ hshared.2, self, i, ?_⟩
      rw [Roster.slot, if_pos ⟨hself, hshared.1⟩, hh]

theorem steps_change {b : Book} {may' : Roster → Nat → Prop} {r r' : Roster} (hb : b.slot = r.slot)
    (hc : Roster.Change Roster.PidLeft may' r r') :
    Relation.ReflTransGen (Book.Step ok may) b {b with slot := r'.slot} := by
  have hsame (he : r'.slot = r.slot) :
      Relation.ReflTransGen (Book.Step ok may) b {b with slot := r'.slot} := by
    rw [he, ← hb]
  cases hc with
  | same => exact hsame rfl
  | spend hp _ _ new => exact hsame (funext fun q => slot_begin hp new _ q)
  | reimage _ _ dir => exact hsame (funext fun q => slot_reimage _ dir q)
  | @enter p new calls hp h0 hleft hnew =>
    have hslot : (r.enter p new calls).slot = Function.update b.slot p fun i =>
        if new.ufdInuse i = true then some (new.ufdHandle i) else none := by
      funext q
      rw [slot_enter, Function.update_apply, hb]
    rw [hslot]
    refine .single (.share (fun i => ?_) fun i h hi => ?_)
    · rw [hb, slot_outside hp]
    · rw [hb]
      exact newcomer_slots hnew hi

/-- An operation that frees nobody, performed by a task of the table. -/
theorem does_change (op : Op) (hop : op.releases = false)
    (hcaller : ∀ p ∈ op.caller, p ∈ s.kernel.table) (hleft : s.kernel.nextPid.toNat < 2 ^ 32) :
    Does ok may s {s with kernel := Process.perform s.kernel op} := by
  have hchange (hs : s.Sane) : Kernel.Changes Roster.PidLeft (fun _ _ => True) s.kernel
      (Process.perform s.kernel op) :=
    roster_change s.kernel op hs.owned hleft hcaller (fun _ _ _ _ _ _ => trivial) hop
  refine .of (fun hs => owned_perform hcaller hs.owned) (fun hs => ?_) fun hs => ?_
  · exact grouped_perform hs.owned hs.grouped hop hcaller hleft
  · exact steps_change rfl (hchange hs)

theorem asks_pipeIncrefs (hs : List (BitVec 32)) :
    ∀ s : Io, Asks (hs.map (.pipe .incref ·)) s (hs.foldl pipeIncref s) := by
  induction hs with
  | nil => exact asks_refl
  | cons h rest ih => exact fun s => (asks_pipeIncref s h).trans (ih _)

theorem does_doFork (hok : ∀ c : Call, c.Sound → ok c) (hself : self ∈ s.kernel.table)
    (hleft : s.kernel.nextPid.toNat < 2 ^ 32) (dir block stack : Nat)
    (bufs : Fin procMaxVmas → Nat) : Does ok may s (s.doFork self dir block stack bufs) := by
  have hfork : Does ok may s {s with kernel := (s.kernel.doFork self dir block stack bufs).1} :=
    does_change (.fork self dir block stack bufs) rfl
      (fun p hp => Option.mem_some.mp hp ▸ hself) hleft
  refine hfork.trans ((asks_pipeIncrefs _ _).does (fun c hc => ?_) fun c hc => ?_)
  · obtain ⟨h, hh, rfl⟩ := mem_map.mp hc
    split at hh
    · cases hh
    obtain ⟨i, hi, rfl⟩ := mem_map.mp hh
    have hshared := (mem_filter.mp hi).2
    rw [inheritsFd, Bool.and_eq_true] at hshared
    exact hok _ hshared.2
  · obtain ⟨h, _, rfl⟩ := mem_map.mp hc
    trivial

/-- Every operation of the process layer. -/
theorem does_process (hok : ∀ c : Call, c.Sound → ok c) (op : Op)
    (hcaller : ∀ p ∈ op.caller, p ∈ s.kernel.table) (hleft : s.kernel.nextPid.toNat < 2 ^ 32) :
    Does ok may s (s.process op) := by
  cases op with
  | exit self code => exact does_exit (hcaller self rfl) code
  | userFault self sig writable => exact does_userFault (hcaller self rfl) sig writable
  | reapZombies => exact does_reapFrom _ s 0
  | waitpid self wpid options => exact does_doWaitpid self wpid options
  | destroyProcess pid => exact does_destroyProcess pid
  | fork self dir block stack bufs =>
    exact does_doFork hok (hcaller self rfl) hleft dir block stack bufs
  | mmap self length prot file block readable =>
    exact does_sysMmap length prot none file.off block readable _ fun _ h => nomatch h
  | _ => exact does_change _ rfl hcaller hleft

/-! ### Every call -/

/-- Where a call depends on what its descriptors are: the calls it makes must be `ok`, and
`may` holds of what it copies. -/
def Allows (ok : Call → Prop) (may : BitVec 32 → Prop) (s : Io) : Sys → Prop
  | .fsize self fd _ => ∀ i h, s.ufdLookup self fd = some (i, h) → ok (.vfs .fsize h)
  | .mmap self _ _ fd _ _ _ _ => ∀ i h, s.ufdLookup self fd = some (i, h) → isPipe h = false →
    ok (.vfs .fsize h) ∧ ok (.vfs .pread h)
  | .dup self oldfd => ∀ i h, s.ufdLookup self oldfd = some (i, h) → may h
  | .dup2 self oldfd newfd => ∀ i h j, s.ufdLookup self oldfd = some (i, h) →
    slotOf newfd = some j → newfd ≠ oldfd → (s.kernel.procs (s.fdOwner self)).ufdInuse j = true →
        isSocket ((s.kernel.procs (s.fdOwner self)).ufdHandle j) = false
  | _ => True

theorem does_step (hok : ∀ c : Call, c.Sound → ok c) (hmay : ∀ h, isSocket h = false → may h)
    (hleft : s.kernel.nextPid.toNat < 2 ^ 32) (sys : Sys) (hall : Allows ok may s sys) :
    Does ok may s (s.step sys) := by
  simp only [step]
  split
  case isFalse => exact .refl
  case isTrue hcaller =>
    cases sys with
    | process op => exact does_process hok op hcaller hleft
    | «open» self node append env => exact does_sysOpen hok hmay (hcaller self rfl) node append env
    | read self fd count env => exact does_sysRead hok (hcaller self rfl) fd count env
    | write self fd src env => exact does_sysWrite hok (hcaller self rfl) fd src env
    | close self fd => exact does_sysClose (hcaller self rfl) fd
    | fsize self fd env => exact does_sysFsize fd env hall
    | fstat self fd env => exact does_sysFstat hok fd env
    | lseek self fd offset whence env =>
      exact does_sysLseek hok (hcaller self rfl) fd offset whence env
    | dup2 self oldfd newfd => exact does_sysDup2 hok hmay (hcaller self rfl) oldfd newfd hall
    | dup self oldfd => exact does_sysDup hok (hcaller self rfl) oldfd hall
    | pipe self env => exact does_sysPipe hok hmay (hcaller self rfl) env
    | socket self type env => exact does_sysSocket hok (hcaller self rfl) type env
    | accept self fd child => exact does_sysAccept hok (hcaller self rfl) fd child
    | connect self | bind self | listen self | sendto self | recvfrom self =>
      exact does_onSocket hok (hcaller self rfl) _ _ _ _
    | poll self fds => exact does_sysPoll hok fds s
    | mmap self length prot fd off block readable env =>
      refine does_sysMmap length prot (some fd) off block readable env fun a ha => ?_
      exact Option.mem_some.mp ha ▸ hall
    | getdents node turns => exact does_sysGetdents hok node turns
    | readFile node => exact does_readFile hok node

theorem book_boot (init : Nat) : (boot init).book =
    ⟨fun _ _ => none, fun _ => false, fun _ => 0, []⟩ := by
  have hslot : (boot init).kernel.roster.slot = fun _ _ => none := slot_boot init
  simp only [book, hslot]
  rfl

theorem sane_boot (init : Nat) : (boot init).Sane := by
  refine ⟨owned_boot init, grouped_boot init, fun p i h hi => ?_⟩
  rw [book_boot] at hi
  cases hi

end Io
end Nyx.Descriptors
