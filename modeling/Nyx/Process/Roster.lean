import Nyx.Process.Births
import Nyx.Process.Reaping

/-! Who is in the table, without whether they run.

`Roster` is the part of `Cores` that waking, stopping, signalling and dying leave alone. On
it the process layer is a small machine of its own (`Roster.Step`): a task enters the table
or is given up before it does, changes its image, closes its descriptors, or is freed and
hands its group over. Every operation of the kernel is a sequence of such steps
(`roster_step`). -/
namespace Nyx.Process
open Nyx.Lib Function Kernel

/-- What a table entry says about its task besides its run state. -/
structure Entry where
  pid : BitVec 32
  ppid : BitVec 32
  tgid : BitVec 32
  pageDirectory : Nat
  ufdInuse : Fin procMaxFds → Bool
  ufdHandle : Fin procMaxFds → BitVec 32
  ufdOffset : Fin procMaxFds → BitVec 32

@[ext] structure Roster where
  table : List Nat
  nextPid : BitVec 64
  currentIdx : Nat
  fdCalls : List FdCall
  entry : Nat → Entry

def Core.entry (c : Core) : Entry :=
  ⟨c.pid, c.ppid, c.tgid, c.pageDirectory, c.ufdInuse, c.ufdHandle, c.ufdOffset⟩

def Cores.roster (c : Cores) : Roster :=
  ⟨c.table, c.nextPid, c.currentIdx, c.fdCalls, fun p => (c.core p).entry⟩

def Kernel.roster (k : Kernel) : Roster := k.cores.roster

namespace Entry

variable (e : Entry) (parent : Entry)

/-- No descriptor open. -/
def shut : Entry := {e with ufdInuse := fun _ => false}

def closeCalls : List FdCall :=
  ((List.finRange procMaxFds).filter e.ufdInuse).map fun i => Kernel.closeCall (e.ufdHandle i)

def fresh (pid ppid : BitVec 32) (dir : Nat) : Entry :=
  ⟨pid, ppid, 0, dir, fun _ => false, fun _ => 0, fun _ => 0⟩

def inheritsFd (i : Fin procMaxFds) : Bool :=
  e.ufdInuse i && e.ufdHandle i &&& Kernel.ufdPipeFlag != 0#32

def forked (pid : BitVec 32) (dir : Nat) : Entry :=
  { fresh pid parent.pid dir with
    ufdInuse := parent.inheritsFd
    ufdHandle := fun i => if parent.inheritsFd i then parent.ufdHandle i else 0 }

def pipeIncrefs : List FdCall :=
  ((List.finRange procMaxFds).filter parent.inheritsFd).map fun i =>
    .pipeIncref (Kernel.ufdPipeId (parent.ufdHandle i)) (Kernel.ufdPipeIsWrite (parent.ufdHandle i))

/-- The heir of `d` in its place. -/
def inherit (d e : Entry) : Entry :=
  { e with
    tgid := 0
    ufdInuse := d.ufdInuse
    ufdHandle := d.ufdHandle
    ufdOffset := d.ufdOffset }

end Entry

namespace Roster
variable (r : Roster) (p : Nat)

def modify (g : Entry → Entry) : Roster :=
  {r with entry := Function.update r.entry p (g (r.entry p))}

def findProcess (pid : BitVec 32) : Option Nat :=
  r.table.find? fun p => p != 0 && (r.entry p).pid == pid

def tgLeader : Nat :=
  if p = 0 ∨ (r.entry p).tgid = 0 ∨ (r.entry p).tgid = (r.entry p).pid then p
  else (r.findProcess (r.entry p).tgid).getD p

def inGroup (dying p : Nat) : Bool :=
  p != 0 && p != dying && (r.entry p).tgid == (r.entry dying).pid

def begin (new : Entry) (calls : List FdCall) : Roster :=
  { r with
    nextPid := r.nextPid + 1
    fdCalls := r.fdCalls ++ calls
    entry := Function.update r.entry p new }

def enter (new : Entry) (calls : List FdCall) : Roster :=
  {r.begin p new calls with table := r.table ++ [p]}

def close : Roster := {r.modify p Entry.shut with fdCalls := r.fdCalls ++ (r.entry p).closeCalls}

/-- What `tg_reassign_leader` leaves of an entry when `heir` takes over from `p`. -/
def handed (heir q : Nat) : Entry :=
  if q = heir then (r.entry p).inherit (r.entry heir)
  else if q = p then (r.entry p).shut
  else if q ∈ r.table ∧ r.inGroup p q then {r.entry q with tgid := (r.entry heir).pid}
  else r.entry q

def reassign : Roster :=
  match r.table.find? (r.inGroup p) with
  | none => r
  | some heir => {r with entry := r.handed p heir}

def remove (i : Nat) : Roster := {r with table := swapRemove r.table i}

def reap (i : Nat) : Roster :=
  { r with
    table := swapRemove r.table i
    currentIdx := if r.currentIdx = r.table.length - 1 then i else r.currentIdx }

/-- A record a creation can fill in, and the calls it makes. -/
inductive Newcomer : Entry → List FdCall → Prop
  | fresh (ppid : BitVec 32) (dir : Nat) : Newcomer (.fresh (r.nextPid.setWidth 32) ppid dir) []
  | forked {self : Nat} (hself : self ∈ r.table) (dir : Nat) :
    Newcomer ((r.entry self).forked (r.nextPid.setWidth 32) dir) (r.entry self).pipeIncrefs
  | cloned {self : Nat} (hself : self ∈ r.table) : Newcomer
      { Entry.fresh (r.nextPid.setWidth 32) (r.entry self).pid (r.entry self).pageDirectory with
        tgid := (r.entry (r.tgLeader self)).pid } []

/-- A step of the roster. `births` and `may` say in which rosters a pid may be handed out
and a task may change its image. -/
inductive Step (births : Roster → Prop) (may : Roster → Nat → Prop) (r : Roster) : Roster → Prop
  | spend {p : Nat} {filled : Entry} {calls : List FdCall} (hp : p ∉ r.table) (hb : births r)
      (hcalls : r.Newcomer filled calls) (new : Entry) : Step births may r (r.begin p new calls)
  | enter {p : Nat} {new : Entry} {calls : List FdCall} (hp : p ∉ r.table) (h0 : p ≠ 0)
      (hb : births r) (hnew : r.Newcomer new calls) : Step births may r (r.enter p new calls)
  | reimage {self : Nat} (hself : self ∈ r.table) (hm : may r self) (dir : Nat) :
    Step births may r (r.modify self fun e => {e with pageDirectory := dir})
  | close {p : Nat} (hp : p ∈ r.table) : Step births may r (r.close p)
  | reap {p i : Nat} (hi : r.table[i]? = some p) :
    Step births may r (((r.close p).reassign p).reap i)
  | free {p : Nat} (hp : p ∈ r.table) :
    Step births may r (((r.close p).remove (r.table.idxOf p)).reassign p)

/-- The steps that close no descriptor, or none at all. -/
inductive Change (births : Roster → Prop) (may : Roster → Nat → Prop) (r : Roster) : Roster → Prop
  | same : Change births may r r
  | spend {p : Nat} {filled : Entry} {calls : List FdCall} (hp : p ∉ r.table) (hb : births r)
      (hcalls : r.Newcomer filled calls) (new : Entry) : Change births may r (r.begin p new calls)
  | enter {p : Nat} {new : Entry} {calls : List FdCall} (hp : p ∉ r.table) (h0 : p ≠ 0)
      (hb : births r) (hnew : r.Newcomer new calls) : Change births may r (r.enter p new calls)
  | reimage {self : Nat} (hself : self ∈ r.table) (hm : may r self) (dir : Nat) :
    Change births may r (r.modify self fun e => {e with pageDirectory := dir})

variable {may : Roster → Nat → Prop} {births : Roster → Prop}

theorem Change.steps {r r' : Roster} (h : Change births may r r') :
    Relation.ReflTransGen (Step births may) r r' := by
  cases h with
  | same => exact .refl
  | spend hp hb hcalls new => exact .single (.spend hp hb hcalls new)
  | enter hp h0 hb hnew => exact .single (.enter hp h0 hb hnew)
  | reimage hself hm dir => exact .single (.reimage hself hm dir)

theorem Change.table {r r' : Roster} (h : Change births may r r') : r.table ⊆ r'.table := by
  cases h with
  | same => exact List.Subset.refl _
  | spend => exact List.Subset.refl _
  | enter => exact List.subset_append_left ..
  | reimage => exact List.Subset.refl _

end Roster

/-! ### The kernel on its roster -/

namespace Kernel

theorem roster_of_cores {k k' : Kernel} (h : k'.cores = k.cores) : k'.roster = k.roster :=
  congrArg Cores.roster h

section
variable (k : Kernel) (p : Nat)

variable {f : Proc → Proc} (sig : BitVec 32) (writable : Bool) (s : Fin nsig)

theorem roster_assign {g : Entry → Entry} (hf : ∀ t, (f t).core.entry = g t.core.entry) :
    (k.modify p f).roster = k.roster.modify p g := by
  refine Roster.ext rfl rfl rfl rfl ?_
  funext q
  show ((update k.procs p _) q).core.entry = update k.roster.entry p _ q
  rw [update_apply, update_apply]
  split
  · exact hf _
  · rfl

theorem roster_modify (hf : ∀ t, (f t).core.entry = t.core.entry) :
    (k.modify p f).roster = k.roster := by
  refine (k.roster_assign p (g := id) hf).trans (Roster.ext rfl rfl rfl rfl ?_)
  exact update_eq_self p k.roster.entry

@[simp] theorem roster_state (s : PState) :
    (k.modify p fun t => {t with state := s}).roster = k.roster := k.roster_modify p fun _ => rfl

@[simp] theorem roster_wakeWaiters : (k.wakeWaiters p).roster = k.roster := by
  simp only [wakeWaiters]
  split
  · rfl
  split
  · rfl
  split
  · exact roster_modify _ _ fun _ => rfl
  · rfl

theorem roster_closeProcFds : (k.closeProcFds p).roster = k.roster.close p := by
  refine Roster.ext rfl rfl rfl rfl ?_
  funext q
  show ((update k.procs p _) q).core.entry = update k.roster.entry p _ q
  rw [update_apply, update_apply]
  split <;> rfl

/-- A death closes descriptors, or does nothing to the roster. -/
theorem roster_exit (code : BitVec 32) (close : Bool) : (k.exit p code close).roster =
    if close then k.roster.close p else k.roster := by
  have hcode : (k.modify p fun t => {t with exitCode := code}).roster = k.roster :=
    k.roster_modify p fun _ => rfl
  simp only [exit, roster_wakeWaiters, roster_state]
  cases close with
  | false => exact hcode
  | true => exact (roster_closeProcFds _ p).trans (congrArg (Roster.close · p) hcode)

@[simp] theorem roster_signalRaise : (k.signalRaise p sig).roster = k.roster := by
  simp only [signalRaise]
  split
  · rfl
  case h_2 s _ =>
    have hcont : (if s = sigcont ∧ (k.procs p).state = .stopped then
        k.modify p fun t => {t with stopSig := 0, state := .run} else k).roster = k.roster := by
      split
      · exact roster_modify _ _ fun _ => rfl
      · rfl
    generalize (if s = sigcont ∧ (k.procs p).state = .stopped then k.modify p _ else k) = k₁
      at hcont ⊢
    have hpend : (k₁.modify p fun t => {t with sigPending := t.sigPending ||| sigBit s}).roster =
        k.roster := by
      refine (roster_modify _ _ ?_).trans hcont
      exact fun _ => rfl
    split
    · refine (roster_modify _ _ ?_).trans hpend
      exact fun _ => rfl
    · exact hpend

theorem roster_doKill (pid sig : BitVec 32) : (k.doKill pid sig).1.roster = k.roster := by
  simp only [doKill]
  split
  · rfl
  split
  · rfl
  · exact roster_signalRaise ..

theorem roster_kwait (pid : BitVec 32) : (k.kwait p pid).1.roster = k.roster := by
  simp only [kwait]
  split
  · rfl
  split
  · rfl
  · exact roster_modify _ _ fun _ => rfl

theorem roster_stop : (k.stop p s).roster = k.roster := by
  simp only [stop, roster_wakeWaiters]
  exact roster_modify _ _ fun _ => rfl

theorem roster_deliver (disp : BitVec 64) (writable : Bool) :
    (k.deliver p s disp writable).roster = k.roster := by
  have hclear := roster_of_cores (k.cores_clearPending p s)
  simp only [deliver]
  split
  · exact hclear
  split
  · split
    · exact hclear
    · split
      · exact (roster_stop ..).trans hclear
      · exact (roster_exit ..).trans hclear
  · split
    · rfl
    · split
      · exact (roster_of_cores ((cores_build ..).trans (cores_divert ..))).trans hclear
      · exact (roster_exit ..).trans ((roster_of_cores (cores_sigSaved ..)).trans hclear)

theorem roster_signalDispatch : (k.signalDispatch p writable).roster = k.roster := by
  simp only [signalDispatch]
  split
  · rfl
  split
  · rfl
  · exact roster_deliver ..

/-- A fault ends in a handler, or closes the descriptors of the task it kills. -/
theorem roster_userFault : (k.userFault p sig writable).roster = k.roster ∨
      (k.userFault p sig writable).roster = k.roster.close p := by
  have hsame := roster_of_cores (k.cores_signalDeliverFault p sig writable)
  simp only [userFault]
  split
  case h_1 k' he =>
    rw [he] at hsame
    exact .inl hsame
  case h_2 k' he =>
    rw [he] at hsame
    exact .inr ((roster_exit ..).trans (congrArg (Roster.close · p) hsame))

/-- The group of `p` goes over to `heir`. -/
theorem roster_handover {heir : Nat} (hne : heir ≠ p) :
    ((((k.modify heir (inherit (k.procs p))).modify p relinquish).repoint p
        (k.procs heir).pid).modify heir fun t => {t with tgid := 0}).roster =
      {k.roster with entry := k.roster.handed p heir} := by
  generalize hh : (k.modify heir (inherit (k.procs p))).modify p relinquish = handed
  have hheir : handed.procs heir = inherit (k.procs p) (k.procs heir) := by
    rw [← hh, modify_procs_ne _ _ _ hne, modify_procs_self]
  have hdying : handed.procs p = relinquish (k.procs p) := by
    rw [← hh, modify_procs_self, modify_procs_ne _ _ _ hne.symm]
  have hother (q : Nat) (hq : q ≠ heir) (hp : q ≠ p) : handed.procs q = k.procs q := by
    rw [← hh, modify_procs_ne _ _ _ hp, modify_procs_ne _ _ _ hq]
  have hgroup (q : Nat) (hq : q ≠ heir) : handed.inGroup p q = k.inGroup p q := by
    rcases eq_or_ne q p with rfl | hp
    · simp [inGroup]
    rw [inGroup, inGroup, hdying, hother q hq hp]
    rfl
  refine Roster.ext ?_ ?_ ?_ ?_ ?_
  iterate 4
    rw [← hh]
    rfl
  funext q
  show (((handed.repoint p (k.procs heir).pid).modify heir _).procs q).core.entry =
    k.roster.handed p heir q
  rw [Roster.handed]
  rcases eq_or_ne q heir with rfl | hq
  · rw [modify_procs_self, if_pos rfl]
    show Core.entry (Proc.core {(if _ then _ else handed.procs q : Proc) with tgid := 0}) = _
    split <;> rw [hheir] <;> rfl
  rw [modify_procs_ne _ _ _ hq, if_neg hq]
  show Core.entry (Proc.core (if q ∈ handed.table ∧ handed.inGroup p q = true then
    {handed.procs q with tgid := (k.procs heir).pid} else handed.procs q)) = _
  rw [hgroup q hq]
  rcases eq_or_ne q p with rfl | hp
  · rw [if_pos rfl, if_neg (by simp [inGroup]), hdying]
    rfl
  rw [if_neg hp, hother q hq hp]
  have htable : handed.table = k.table := by rw [← hh]; rfl
  rw [htable]
  split
  case isTrue hin =>
    rw [if_pos]
    · rfl
    · exact hin
  case isFalse hout =>
    rw [if_neg]
    · rfl
    · exact hout

theorem roster_tgReassignLeader : (k.tgReassignLeader p).roster = k.roster.reassign p := by
  have hfind : k.roster.table.find? (k.roster.inGroup p) = k.table.find? (k.inGroup p) := rfl
  rw [tgReassignLeader, Roster.reassign, hfind]
  cases hheir : k.table.find? (k.inGroup p) with
  | none => rfl
  | some heir =>
    have hmember := List.find?_some hheir
    simp only [inGroup, Bool.and_eq_true, bne_iff_ne] at hmember
    exact k.roster_handover p hmember.1.2

theorem roster_reapEntry (i : Nat) :
    (k.reapEntry p i).roster = ((k.roster.close p).reassign p).reap i := by
  have hcores := congrArg Cores.roster (k.cores_reapEntry p i)
  rw [← roster_closeProcFds, ← roster_tgReassignLeader]
  exact hcores

theorem roster_reapUserProcess (hp : p ∈ k.table) : (k.reapUserProcess p).roster =
    ((k.roster.close p).remove (k.table.idxOf p)).reassign p := by
  have hcores := congrArg Cores.roster (k.cores_reapUserProcess p hp)
  rw [← roster_closeProcFds]
  exact hcores.trans (roster_tgReassignLeader _ p)

end

/-! ### Operations as steps -/

section
variable {births : Roster → Prop} {may : Roster → Nat → Prop} {k k' : Kernel}

abbrev Steps (births : Roster → Prop) (may : Roster → Nat → Prop) (k k' : Kernel) : Prop :=
  Relation.ReflTransGen (Roster.Step births may) k.roster k'.roster

theorem Steps.of_eq (h : k'.roster = k.roster) : Steps births may k k' := by
  rw [Steps, h]

theorem Steps.of_step (h : Roster.Step births may k.roster k'.roster) : Steps births may k k' :=
  .single h

/-- What an operation that frees nobody does. -/
abbrev Changes (births : Roster → Prop) (may : Roster → Nat → Prop) (k k' : Kernel) : Prop :=
  Roster.Change births may k.roster k'.roster

theorem Changes.of_eq (h : k'.roster = k.roster) : Changes births may k k' := by
  rw [Changes, h]
  exact .same

theorem roster_aborted {calls : List FdCall} (h : Aborted k k' calls) :
    k'.roster = k.roster ∨ ∃ p ∉ k.table, ∃ filled, k'.roster = k.roster.begin p filled calls := by
  rcases h with h | ⟨p, hp, filled, h⟩
  · exact .inl (roster_of_cores h)
  refine .inr ⟨p, hp, filled.entry, (congrArg Cores.roster h).trans (Roster.ext rfl rfl rfl rfl ?_)⟩
  exact Function.comp_update Core.entry k.cores.core p filled

variable {calls : List FdCall}

theorem roster_born {p : Nat} {new : Core} (h : Born k k' p new calls) :
    k'.roster = k.roster.enter p new.entry calls := by
  refine (congrArg Cores.roster h.cores).trans (Roster.ext rfl rfl rfl rfl ?_)
  exact Function.comp_update Core.entry k.cores.core p new

theorem changes_aborted {new : Entry} (hb : births k.roster) (hnew : k.roster.Newcomer new calls)
    (h : Aborted k k' calls) : Changes births may k k' := by
  rcases roster_aborted h with h | ⟨p, hp, filled, h⟩
  · exact .of_eq h
  rw [Changes, h]
  exact .spend hp hb hnew filled

theorem changes_born {p : Nat} {new : Core} (hb : births k.roster) (h : Born k k' p new calls)
    (hnew : k.roster.Newcomer new.entry calls) : Changes births may k k' := by
  rw [Changes, roster_born h]
  exact .enter h.outside h.nonnull hb hnew

theorem roster_doExecve (k : Kernel) (self : Nat) (load : Load) (argc sp : BitVec 64) :
    (k.doExecve self load argc sp).1.roster = k.roster ∨
      (k.doExecve self load argc sp).2 = 0#32 ∧ ∃ dir, (k.doExecve self load argc sp).1.roster =
        k.roster.modify self fun e => {e with pageDirectory := dir} := by
  rcases k.doExecve_outcome self load argc sp with h | ⟨hok, dir, h⟩
  · exact .inl (roster_of_cores h)
  refine .inr ⟨hok, dir, (congrArg Cores.roster h).trans (Roster.ext rfl rfl rfl rfl ?_)⟩
  exact Function.comp_update Core.entry k.cores.core self _

theorem changes_doExecve {self : Nat} (hself : self ∈ k.table) (load : Load) (argc sp : BitVec 64)
    (hm : (k.doExecve self load argc sp).2 = 0#32 → may k.roster self) :
    Changes births may k (k.doExecve self load argc sp).1 := by
  rcases k.roster_doExecve self load argc sp with h | ⟨hok, dir, h⟩
  · exact .of_eq h
  rw [Changes, h]
  exact .reimage hself (hm hok) dir

theorem steps_reapEntry {p i : Nat} (hi : k.table[i]? = some p) :
    Steps births may k (k.reapEntry p i) := by
  refine .of_step ?_
  rw [roster_reapEntry]
  exact .reap hi

theorem steps_reapFrom (turns : Nat) :
    ∀ (k : Kernel) (i : Nat), Steps births may k (k.reapFrom turns i) := by
  induction turns with
  | zero => exact fun k _ => .of_eq rfl
  | succ turns ih =>
    intro k i
    simp only [reapFrom]
    split
    · exact .of_eq rfl
    case h_2 p hi =>
      split
      · exact .trans (steps_reapEntry hi) (ih _ i)
      · exact ih k (i + 1)

theorem steps_doWaitpid (self : Nat) (wpid options : BitVec 32) :
    Steps births may k (k.doWaitpid self wpid options).1 := by
  simp only [doWaitpid]
  split
  · exact .of_eq rfl
  split
  case h_1 zi hzi => exact steps_reapEntry (collected_of_findIdx hzi).1
  · split
    · exact .of_eq (roster_modify _ _ fun _ => rfl)
    · split
      · exact .of_eq rfl
      · exact .of_eq (roster_modify _ _ fun _ => rfl)

theorem steps_destroyProcess (pid : BitVec 64) : Steps births may k (k.destroyProcess pid) := by
  simp only [destroyProcess]
  split
  · exact .of_eq rfl
  case h_2 p hfind =>
    split
    · refine .of_eq ((roster_wakeWaiters ..).trans (roster_modify _ _ ?_))
      exact fun _ => rfl
    have hp : p ∈ k.table := List.mem_of_find?_eq_some hfind
    refine .of_step ?_
    rw [roster_reapUserProcess k p hp]
    exact .free hp

end
end Kernel

/-- The operations that close a task's descriptors or free it. -/
def Op.releases : Op → Bool
  | .exit .. | .waitpid .. | .reapZombies | .destroyProcess _ | .userFault .. => true
  | _ => false

/-- The others create a task, replace an image, or leave the roster alone. -/
theorem roster_change {births : Roster → Prop} {may : Roster → Nat → Prop} (k : Kernel) (op : Op)
    (hk : k.blocks.Owned) (hb : births k.roster) (hcaller : ∀ p ∈ op.caller, p ∈ k.table)
    (hm : ∀ self image argc sp, op = .execve self image argc sp →
      (k.doExecve self image argc sp).2 = 0#32 → may k.roster self)
    (hop : op.releases = false) : Kernel.Changes births may k (perform k op) := by
  have hfresh (ppid : BitVec 32) (dir : Nat) := Roster.Newcomer.fresh (r := k.roster) ppid dir
  cases op with
  | createProcess entry block stack =>
    rcases createProcess_outcome hk entry block stack with h | ⟨p, h⟩
    · exact changes_aborted hb (hfresh 0 0) h
    · exact changes_born hb h (hfresh 0 0)
  | load image rsp block stack =>
    rcases elfLoadArgs_outcome hk image rsp block stack with ⟨_, h⟩ | ⟨dir, h⟩
    · exact changes_aborted hb (hfresh 0 0) h
    · exact changes_born hb h (hfresh 0 dir)
  | spawn parent image rsp block stack =>
    rcases spawnUserPathArgs_outcome hk parent image rsp block stack with
      h | ⟨p, dir, ppid, h⟩
    · exact changes_aborted hb (hfresh 0 0) h
    · exact changes_born hb h (hfresh ppid dir)
  | fork self dir block stack bufs =>
    have hself : self ∈ k.roster.table := hcaller self rfl
    rcases doFork_outcome hk self dir block stack bufs with h | ⟨p, dir, h⟩
    · exact changes_aborted hb (.forked hself 0) h
    · exact changes_born hb h (.forked hself dir)
  | clone self fn stack arg flags block kstack =>
    have hself : self ∈ k.roster.table := hcaller self rfl
    rcases doClone_outcome hk self fn stack arg flags block kstack with h | ⟨p, h⟩
    · exact changes_aborted hb (.cloned hself) h
    · exact changes_born hb h (.cloned hself)
  | execve self image argc sp =>
    exact changes_doExecve (hcaller self rfl) image argc sp (hm self image argc sp rfl)
  | exit self code => cases hop
  | waitpid self wpid options => cases hop
  | kwait => exact .of_eq (k.roster_kwait ..)
  | reapZombies => cases hop
  | destroyProcess pid => cases hop
  | kill => exact .of_eq (k.roster_doKill ..)
  | dispatch => exact .of_eq (k.roster_signalDispatch ..)
  | userFault self sig writable => cases hop
  | mmap | mprotect | munmap | signal | resumed | sigreturn | sigprocmask | trap =>
    exact .of_eq (roster_of_cores (k.cores_quiet rfl))

theorem roster_step {births : Roster → Prop} {may : Roster → Nat → Prop} (k : Kernel) (op : Op)
    (hk : k.blocks.Owned) (hb : births k.roster)
    (hm : ∀ self image argc sp, op = .execve self image argc sp →
      (k.doExecve self image argc sp).2 = 0#32 → may k.roster self) :
    Kernel.Steps births may k (step k op) := by
  simp only [step]
  split
  case isFalse => exact .of_eq rfl
  case isTrue hcaller =>
    cases hop : op.releases with
    | false => exact (roster_change k op hk hb hcaller hm hop).steps
    | true =>
      cases op with
      | exit self code =>
        refine .of_step ?_
        show Roster.Step births may k.roster (k.exit self code true).roster
        rw [roster_exit, if_pos rfl]
        exact .close (hcaller self rfl)
      | waitpid => exact steps_doWaitpid ..
      | reapZombies => exact steps_reapFrom _ k 0
      | destroyProcess pid => exact steps_destroyProcess pid
      | userFault self sig writable =>
        rcases k.roster_userFault self sig writable with h | h
        · exact .of_eq h
        refine .of_step ?_
        show Roster.Step births may k.roster (k.userFault self sig writable).roster
        rw [h]
        exact .close (hcaller self rfl)
      | _ => cases hop

variable {may : Roster → Nat → Prop} {births : Roster → Prop}

theorem change_boot (init : Nat) (hb : births empty.roster) :
    Kernel.Changes births may empty (boot init) := by
  rcases initProcess_outcome owned_empty init with h | ⟨p, h⟩
  · exact changes_aborted hb (.fresh 0 0) h
  · exact changes_born hb h (.fresh 0 0)

end Nyx.Process
