import Nyx.Process.Groups
import Nyx.Process.Waiting

/-! The waiting protocol of the kernel.

`Waits` is the process layer with what its tasks asked for in the `do_waitpid` they are inside
of, and a log of what the parents of stopped and dead tasks were told. Every operation takes
steps of the protocol (`Watch.Step`), as long as pids identify tasks. -/
namespace Nyx.Process
open Nyx.Lib Function List

def Core.member (c : Core) : Member := ⟨c.pid, c.ppid, c.state, c.waitingFor, c.stoppedReported⟩

def Cores.watch (c : Cores) (inside : Nat → Option Request) (log : List Notice) : Watch :=
  ⟨c.table, fun p => (c.core p).member, c.nextPid.toNat, inside, log⟩

structure Waits where
  kernel : Kernel
  inside : Nat → Option Request
  log : List Notice

namespace Waits

def watch (s : Waits) : Watch := s.kernel.cores.watch s.inside s.log

/-- What an operation tells, or what there is to tell after it. -/
def notices (k : Kernel) : Op → List Notice
  | .dispatch self writable =>
    if (k.procs self).state ≠ .stopped ∧
        ((k.signalDispatch self writable).procs self).state = .stopped then
      [.stopped (k.procs self).pid]
    else []
  | .waitpid self wpid options =>
    match k.collected self wpid with
    | some c =>
      [.exited (k.procs self).pid (k.procs c).ppid (k.procs c).pid (k.procs c).exitCode]
    | none =>
      match k.stoppedChild self wpid options with
      | some p => [.reported (k.procs p).pid]
      | none => []
  | _ => []

/-- A task is inside of `do_waitpid` from the pass that parks it to the one that returns. -/
def request (s : Waits) : Op → Nat → Option Request
  | .waitpid self wpid options =>
    Function.update s.inside self
      (if (s.kernel.doWaitpid self wpid options).2 = .parked then some ⟨wpid, options⟩ else none)
  | _ => s.inside

def step (s : Waits) (op : Op) : Waits :=
  if ∀ p ∈ op.caller, p ∈ s.kernel.table then
    ⟨perform s.kernel op, s.request op, s.log ++ notices s.kernel op⟩
  else s

def boot (init : Nat) : Waits := ⟨Process.boot init, fun _ => none, []⟩

def after (init : Nat) (ops : List Op) : Waits := run step (boot init) ops

end Waits

/-- The next pass of a `do_waitpid` with these arguments. -/
def Op.continues (r : Request) : Op → Bool
  | .waitpid _ wpid options => wpid == r.wpid && options == r.options
  | _ => false

def Op.destroys : Op → Bool
  | .destroyProcess _ => true
  | _ => false

/-- One core runs the tasks: who makes a call is running, and a task inside of `do_waitpid`
goes on with it. Fewer than 2^32 tasks were created so far. -/
structure Waits.Lawful (s : Waits) (op : Op) : Prop where
  left : s.kernel.nextPid.toNat < 2 ^ 32
  running : ∀ p ∈ op.caller, (s.kernel.procs p).state = .run ∧
    ∀ r ∈ s.inside p, op.continues r = true
  spared : op.destroys = false

instance (s : Waits) (op : Op) : Decidable (s.Lawful op) :=
  decidable_of_iff (_ ∧ _ ∧ _) ⟨fun h => ⟨h.1, h.2.1, h.2.2⟩, fun h => ⟨h.1, h.2, h.3⟩⟩

/-! ### Waking -/

namespace Kernel
variable {k k' : Kernel}

def member (k : Kernel) (p : Nat) : Member := (k.procs p).core.member

theorem member_modify_self (p : Nat) (f : Proc → Proc) :
    (k.modify p f).member p = (f (k.procs p)).core.member := by
  rw [member, modify_procs_self]

theorem member_modify_ne {p q : Nat} (f : Proc → Proc) (hq : q ≠ p) :
    (k.modify p f).member q = k.member q := by
  rw [member, modify_procs_ne _ _ _ hq]
  rfl

/-- A task that is modified in nothing but its state and what it waits for, and runs then. -/
theorem kept_modify {p : Nat} {f : Proc → Proc}
    (hf : Watch.Kept (k.member p) (f (k.procs p)).core.member) (q : Nat) :
    Watch.Kept (k.member q) ((k.modify p f).member q) := by
  by_cases hq : q = p
  · rw [hq, member_modify_self]
    exact hf
  rw [member_modify_ne f hq]
  exact .of_eq rfl

theorem wakeWaiters_kept (k : Kernel) (child q : Nat) :
    Watch.Kept (k.member q) ((k.wakeWaiters child).member q) := by
  simp only [wakeWaiters]
  split
  · exact .of_eq rfl
  split
  · exact .of_eq rfl
  split
  · exact kept_modify ⟨rfl, rfl, rfl, .inr rfl⟩ q
  · exact .of_eq rfl

/-- A parent that sleeps for this child, or for any, is woken. -/
theorem wakeWaiters_wakes {child q : Nat} (hn : k.roster.Numbered) (hq : q ∈ k.table)
    (hparent : (k.member q).pid = (k.member child).ppid)
    (hfor : (k.member q).waitingFor = (k.member child).pid ∨ (k.member q).waitingFor = 0) :
    ((k.wakeWaiters child).member q).state ≠ .blocked := by
  have hpid : (k.procs q).pid = (k.procs child).ppid := hparent
  have hppid : (k.procs child).ppid ≠ 0 := by
    intro he
    have hpos : 0 < (k.procs q).pid.toNat := hn.positive q hq
    rw [hpid, he] at hpos
    exact Nat.lt_irrefl _ hpos
  have hfind : k.findProcess (k.procs child).ppid = some q := hpid ▸ hn.findProcess hq
  simp only [wakeWaiters, if_neg hppid, hfind]
  split
  case isTrue =>
    rw [member_modify_self]
    exact PState.noConfusion
  case isFalse hnot => exact fun hb => hnot ⟨hb, hfor⟩

theorem wakeWaiters_self {child : Nat} (h : (k.member child).state ≠ .blocked) :
    (k.wakeWaiters child).member child = k.member child := by
  simp only [wakeWaiters]
  split
  · rfl
  split
  · rfl
  case h_2 parent _ =>
    split
    case isTrue hb =>
      have hne : child ≠ parent := fun he => h (he ▸ hb.1)
      exact member_modify_ne _ hne
    case isFalse => rfl

/-- A task changes its state, and wakes its parent then. -/
theorem falls_wakeWaiters {k₁ : Kernel} {self : Nat} {state : PState} (htable : k₁.table = k.table)
    (hn : k₁.roster.Numbered) (hpid : (k₁.member self).pid = (k.member self).pid)
    (hppid : (k₁.member self).ppid = (k.member self).ppid)
    (hstate : (k₁.member self).state = state) (hasleep : state ≠ .blocked)
    (hother : ∀ q, q ≠ self → k₁.member q = k.member q) (inside : Nat → Option Request)
    (log : List Notice) :
    (k.cores.watch inside log).Falls (k₁.wakeWaiters self).member self state := by
  have hkept := k₁.wakeWaiters_kept self
  refine ⟨(hkept self).pid.trans hpid, (hkept self).ppid.trans hppid, ?_, fun p _ hp => ?_,
    fun p hmem hp hparent hfor => ?_⟩
  · rw [wakeWaiters_self (hstate ▸ hasleep)]
    exact hstate
  · have hk := hkept p
    rw [hother p hp] at hk
    exact hk
  · have hparent' : (k.member p).pid = (k.member self).ppid := hparent
    refine wakeWaiters_wakes hn (htable ▸ hmem) ?_ ?_
    · rw [hother p hp, hppid]
      exact hparent'
    · rw [hother p hp, hpid]
      exact hfor

theorem member_closeProcFds (p q : Nat) : (k.closeProcFds p).member q = k.member q :=
  k.modify_field p (fun t => {t with ufdInuse := fun _ => false}) (·.core.member) (fun _ => rfl) q

theorem falls_exit {self : Nat} (hn : k.roster.Numbered) (hself : self ∈ k.table)
    (code : BitVec 32) (close : Bool) (inside : Nat → Option Request) (log : List Notice) :
    (k.cores.watch inside log).Falls (k.exit self code close).member self .zombie := by
  have hroster := k.roster_exit self code close
  simp only [exit] at hroster ⊢
  rw [roster_wakeWaiters] at hroster
  generalize hk₀ : (if close = true then closeProcFds _ self else _ : Kernel) = k₀ at hroster ⊢
  have hk₀' (q : Nat) : k₀.member q = k.member q := by
    rw [← hk₀]
    have hcode := k.modify_field self (fun t => {t with exitCode := code}) (·.core.member)
      (fun _ => rfl) q
    split
    · exact (member_closeProcFds self q).trans hcode
    · exact hcode
  refine falls_wakeWaiters ?_ ?_ ?_ ?_ ?_ ?_ (fun q hq => ?_) inside log
  · have htable := congrArg Roster.table hroster
    cases close <;> exact htable
  · rw [hroster]
    cases close with
    | false => exact hn
    | true =>
      have hstep : Roster.Step Roster.PidLeft Roster.Alone k.roster (k.roster.close self) :=
        .close hself
      exact Roster.numbered_step hn hstep
  · rw [member_modify_self]
    exact (congrArg Member.pid (hk₀' self) :)
  · rw [member_modify_self]
    exact (congrArg Member.ppid (hk₀' self) :)
  · rw [member_modify_self]
    rfl
  · exact PState.noConfusion
  · rw [member_modify_ne _ hq]
    exact hk₀' q

theorem falls_stop (hn : k.roster.Numbered) (self : Nat) (s : Fin nsig)
    (inside : Nat → Option Request) (log : List Notice) :
    (k.cores.watch inside log).Falls (k.stop self s).member self .stopped := by
  have hroster := k.roster_stop self s
  simp only [stop] at hroster ⊢
  rw [roster_wakeWaiters] at hroster
  refine falls_wakeWaiters ?_ (hroster ▸ hn) ?_ ?_ ?_ ?_ (fun q hq => ?_) inside log
  · rfl
  · rw [member_modify_self]
    rfl
  · rw [member_modify_self]
    rfl
  · rw [member_modify_self]
    rfl
  · exact PState.noConfusion
  · exact member_modify_ne _ hq

/-! ### Operations as steps -/

section
variable {inside : Nat → Option Request} {log : List Notice}

/-- What one operation comes to for the protocol. -/
abbrev Takes (k k' : Kernel) (inside inside' : Nat → Option Request) (log log' : List Notice) :
    Prop :=
  Relation.ReflTransGen Watch.Step (k.cores.watch inside log) (k'.cores.watch inside' log')

theorem takes_same (h : k'.cores = k.cores) : Takes k k' inside inside log log := by
  rw [Takes, h]

/-- A kernel with the same table and counter. -/
theorem watch_of_table (htable : k'.table = k.table) (hnext : k'.nextPid = k.nextPid)
    (inside' : Nat → Option Request) (log' : List Notice) : k'.cores.watch inside' log' =
      { k.cores.watch inside log with
        member := k'.member
        inside := inside'
        log := log' } := by
  show Watch.mk k'.table _ k'.nextPid.toNat _ _ = Watch.mk k.table _ k.nextPid.toNat _ _
  rw [htable, hnext]
  rfl

variable {calls : List FdCall} (p : Nat)

theorem watch_modify (f : Proc → Proc) (inside' : Nat → Option Request) (log' : List Notice) :
    (k.modify p f).cores.watch inside' log' =
      { k.cores.watch inside log with
        member := (k.modify p f).member
        inside := inside'
        log := log' } := rfl

theorem takes_calm (htable : k'.table = k.table) (hnext : k'.nextPid = k.nextPid)
    (hkept : ∀ p, Watch.Kept (k.member p) (k'.member p)) : Takes k k' inside inside log log := by
  rw [Takes, watch_of_table htable hnext]
  exact .single (.calm fun p _ => hkept p)

theorem takes_aborted (hleft : k.roster.PidLeft) (h : Aborted k k' calls) :
    Takes k k' inside inside log log := by
  rcases h with h | ⟨p, hp, new, h⟩
  · exact takes_same h
  have hnext : (k.nextPid + 1).toNat = k.nextPid.toNat + 1 := hleft.next
  have hwatch : k'.cores.watch inside log =
      { k.cores.watch inside log with
        member := fun q => (update k.cores.core p new q).member
        next := k.nextPid.toNat + 1 } := by
    rw [h, ← hnext]
    rfl
  rw [Takes, hwatch]
  refine .single (.spend fun q hq => ?_)
  rw [update_of_ne (ne_of_mem_of_not_mem hq hp)]
  rfl

theorem takes_born {p : Nat} {new : Core} (hleft : k.roster.PidLeft) (h : Born k k' p new calls)
    (hstate : new.state = .run) (hpid : new.pid = k.nextPid.setWidth 32) :
    Takes k k' inside inside log log := by
  have hnext : (k.nextPid + 1).toNat = k.nextPid.toNat + 1 := hleft.next
  have hwatch : k'.cores.watch inside log =
      { k.cores.watch inside log with
        table := k.table ++ [p]
        member := fun q => (update k.cores.core p new q).member
        next := k.nextPid.toNat + 1 } := by
    rw [h.cores, ← hnext]
    rfl
  have hself : update k.cores.core p new p = new := update_self ..
  rw [Takes, hwatch]
  refine .single (.enter (fun q hq => ?_) ?_ ?_)
  · rw [update_of_ne (ne_of_mem_of_not_mem hq h.outside)]
    rfl
  · rw [hself]
    exact hstate
  · rw [hself]
    show new.pid.toNat = _
    rw [hpid]
    exact hleft.pid

variable {self : Nat}

theorem takes_exit (hn : k.roster.Numbered) (hself : self ∈ k.table) (code : BitVec 32)
    (close : Bool) : Takes k (k.exit self code close) inside inside log log := by
  have hroster := k.roster_exit self code close
  have htable : (k.exit self code close).table = k.table := by
    refine (congrArg Roster.table hroster).trans ?_
    cases close <;> rfl
  have hnext : (k.exit self code close).nextPid = k.nextPid := by
    refine (congrArg Roster.nextPid hroster).trans ?_
    cases close <;> rfl
  rw [Takes, watch_of_table htable hnext]
  exact .single (.die (falls_exit hn hself code close inside log))

theorem takes_signalRaise (p : Nat) (sig : BitVec 32) :
    Takes k (k.signalRaise p sig) inside inside log log := by
  have hroster := k.roster_signalRaise p sig
  refine takes_calm (congrArg Roster.table hroster) (congrArg Roster.nextPid hroster) fun q => ?_
  simp only [signalRaise]
  split
  · exact .of_eq rfl
  case h_2 s _ =>
    generalize hk₁ : (if s = sigcont ∧ (k.procs p).state = .stopped then _ else k : Kernel) = k₁
    have hcont : Watch.Kept (k.member q) (k₁.member q) := by
      rw [← hk₁]
      split
      · exact kept_modify ⟨rfl, rfl, rfl, .inr rfl⟩ q
      · exact .of_eq rfl
    have hpending := hcont.trans
      (kept_modify (k := k₁) (p := p) (f := fun t => {t with sigPending := t.sigPending ||| sigBit s})
        ⟨rfl, rfl, rfl, .inl ⟨rfl, rfl⟩⟩ q)
    split
    · exact hpending.trans (kept_modify ⟨rfl, rfl, rfl, .inr rfl⟩ q)
    · exact hpending

theorem takes_userFault (hn : k.roster.Numbered) (hself : self ∈ k.table) (sig : BitVec 32)
    (writable : Bool) : Takes k (k.userFault self sig writable) inside inside log log := by
  have hcores := k.cores_signalDeliverFault self sig writable
  simp only [userFault]
  generalize k.signalDeliverFault self sig writable = r at hcores ⊢
  obtain ⟨k₁, diverted⟩ := r
  have hsame : Takes k k₁ inside inside log log := takes_same hcores
  cases diverted with
  | true => exact hsame
  | false =>
    have hroster : k₁.roster = k.roster := roster_of_cores hcores
    have htable : k₁.table = k.table := congrArg Roster.table hroster
    exact hsame.trans (takes_exit (hroster ▸ hn) (htable ▸ hself) _ true)

/-- What `signal_dispatch` comes to: nothing a parent would see, a stop, or a death. -/
theorem signalDispatch_outcome (k : Kernel) (self : Nat) (writable : Bool) :
    (k.signalDispatch self writable).cores = k.cores ∨
      ∃ k₁ : Kernel, k₁.cores = k.cores ∧ ((∃ s, k.signalDispatch self writable = k₁.stop self s) ∨
        ∃ code, k.signalDispatch self writable = k₁.exit self code false) := by
  simp only [signalDispatch]
  split
  · exact .inl rfl
  split
  · exact .inl rfl
  case h_2 s _ =>
    generalize (if uncatchable s then sigDfl else _ : BitVec 64) = disp
    have hclear := k.cores_clearPending self s
    simp only [deliver]
    split
    · exact .inl hclear
    split
    · split
      · exact .inl hclear
      · split
        · exact .inr ⟨_, hclear, .inl ⟨s, rfl⟩⟩
        · exact .inr ⟨_, hclear, .inr ⟨_, rfl⟩⟩
    · split
      · exact .inl rfl
      · split
        · exact .inl ((cores_build ..).trans ((cores_divert ..).trans hclear))
        · exact .inr ⟨_, (cores_sigSaved ..).trans hclear, .inr ⟨_, rfl⟩⟩

theorem takes_dispatch (hn : k.roster.Numbered) (hself : self ∈ k.table)
    (hrun : (k.procs self).state = .run) (writable : Bool) :
    Takes k (k.signalDispatch self writable) inside inside log
      (log ++ Waits.notices k (.dispatch self writable)) := by
  simp only [Waits.notices]
  have hawake : (k.procs self).state ≠ .stopped := by
    rw [hrun]
    exact nofun
  rcases signalDispatch_outcome k self writable with h | ⟨k₁, hk₁, h⟩
  · have hstate : ((k.signalDispatch self writable).procs self).state = .run :=
      (congrArg Core.state (core_of_cores h self)).trans hrun
    rw [hstate, if_neg (fun h => (nomatch h.2)), append_nil]
    exact takes_same h
  have hroster : k₁.roster = k.roster := roster_of_cores hk₁
  have hn₁ : k₁.roster.Numbered := hroster ▸ hn
  have htable : k₁.table = k.table := congrArg Roster.table hroster
  rcases h with ⟨s, h⟩ | ⟨code, h⟩
  · have hfalls := falls_stop hn₁ self s inside log
    have hpid : (k₁.procs self).pid = (k.procs self).pid :=
      congrArg Core.pid (core_of_cores hk₁ self)
    have hroster' := k₁.roster_stop self s
    rw [h, if_pos ⟨hawake, hfalls.state⟩, ← hpid, Takes, ← hk₁,
      watch_of_table (congrArg Roster.table hroster') (congrArg Roster.nextPid hroster')]
    exact .single (.stop hfalls)
  · have hzombie := (falls_exit hn₁ (htable ▸ hself) code false inside log).state
    have hstate : ((k₁.exit self code false).procs self).state = .zombie := hzombie
    rw [h, hstate, if_neg (fun h => (nomatch h.2)), append_nil, Takes, ← hk₁]
    exact takes_exit hn₁ (htable ▸ hself) code false

/-! ### Reaping and waiting -/

/-- What a reaping leaves of a task that its descriptors and its group do not determine. -/
theorem core_reapEntry {α : Type} (g : Core → α) (hinherit : ∀ d t, g (inherit d t).core = g t.core)
    (hleft : ∀ t, g (relinquish t).core = g t.core)
    (htg : ∀ (t : Proc) pid, g {t with tgid := pid}.core = g t.core)
    (hshut : ∀ t : Proc, g {t with ufdInuse := fun _ => false}.core = g t.core) (p i q : Nat) :
    g ((k.reapEntry p i).procs q).core = g (k.procs q).core := by
  have hcore : ((k.reapEntry p i).procs q).core =
      (((k.closeProcFds p).tgReassignLeader p).procs q).core :=
    congrFun (congrArg Cores.core (k.cores_reapEntry p i)) q
  rw [hcore]
  refine (tgReassignLeader_field (k.closeProcFds p) p (fun t => g t.core) hinherit hleft htg q).trans ?_
  exact k.modify_field p (fun t => {t with ufdInuse := fun _ => false}) (fun t => g t.core) hshut q

theorem member_reapEntry (p i q : Nat) : (k.reapEntry p i).member q = k.member q :=
  core_reapEntry Core.member (fun _ _ => rfl) (fun _ => rfl) (fun _ _ => rfl) (fun _ => rfl) p i q

theorem nextPid_reapEntry (p i : Nat) : (k.reapEntry p i).nextPid = k.nextPid := by
  refine (congrArg Cores.nextPid (k.cores_reapEntry p i)).trans ?_
  simp only [tgReassignLeader]
  split <;> rfl

theorem watch_reapEntry (p i : Nat) (inside' : Nat → Option Request) (log' : List Notice) :
    (k.reapEntry p i).cores.watch inside' log' =
      { k.cores.watch inside log with
        table := swapRemove k.table i
        member := (k.reapEntry p i).member
        inside := inside'
        log := log' } := by
  show Watch.mk (k.reapEntry p i).table _ (k.reapEntry p i).nextPid.toNat _ _ =
    Watch.mk (swapRemove k.table i) _ k.nextPid.toNat _ _
  rw [reapEntry_table, nextPid_reapEntry]
  rfl

theorem takes_reapFrom (turns : Nat) : ∀ (k : Kernel) (i : Nat), k.table.Nodup →
    Takes k (k.reapFrom turns i) inside inside log log := by
  induction turns with
  | zero => exact fun k i _ => .refl
  | succ turns ih =>
    intro k i hnodup
    simp only [reapFrom]
    split
    · exact .refl
    case h_2 p hi =>
      split
      · have hreap : Takes k (k.reapEntry p i) inside inside log log := by
          rw [Takes, watch_reapEntry p i]
          refine .single (.reap (fun q hq => ((mem_swapRemove hnodup hi).mp hq).1) fun q _ => ?_)
          exact member_reapEntry p i q
        refine hreap.trans (ih _ i ?_)
        rw [reapEntry_table]
        exact nodup_swapRemove hnodup hi
      · exact ih k (i + 1) hnodup

theorem awaited_iff (self : Nat) (wpid : BitVec 32) {c : Nat} (hc : c ≠ 0) :
    k.awaited self wpid c = true ↔ (k.cores.watch inside log).Awaits self wpid c := by
  simp only [awaited, Watch.Awaits, Bool.and_eq_true, bne_iff_ne, ne_eq, hc, not_false_eq_true,
    true_and, beq_iff_eq, Bool.or_eq_true, Bool.not_eq_true']
  refine and_congr_right fun _ => ?_
  cases (0#32).slt wpid with
  | false => exact ⟨fun _ h => (nomatch h), fun _ => .inl rfl⟩
  | true => exact ⟨fun h _ => h.resolve_left nofun, fun h => .inr (h rfl)⟩

theorem takes_kwait (hin : inside self = none) (pid : BitVec 32) :
    Takes k (k.kwait self pid).1 inside inside log log := by
  simp only [kwait]
  split
  · exact .refl
  split
  · exact .refl
  rw [Takes, watch_modify]
  refine .single (.sleep hin ?_ ?_ fun q _ hq => ?_)
  · rw [member_modify_self]
    exact ⟨rfl, rfl, rfl, .inr rfl⟩
  · rw [member_modify_self]
    rfl
  · exact .of_eq (member_modify_ne _ hq)

theorem member_modify {f : Proc → Proc} {m : Member} (hf : (f (k.procs p)).core.member = m) :
    (k.modify p f).member = update k.member p m := by
  funext q
  rw [update_apply]
  split
  case isTrue hq => rw [hq, member_modify_self, hf]
  case isFalse hq => exact member_modify_ne f hq

theorem takes_collect (hn : k.roster.Numbered) {self c i : Nat} {wpid : BitVec 32}
    (hi : k.table[i]? = some c) (hcol : k.collected self wpid = some c) :
    Takes k (k.reapEntry c i) inside (update inside self none) log (log ++
      [.exited (k.procs self).pid (k.procs c).ppid (k.procs c).pid (k.procs c).exitCode]) := by
  have hc : c ∈ k.table := mem_of_getElem? hi
  have hchild : (k.procs c).ppid = (k.procs self).pid := by
    have hfound := find?_some hcol
    simp only [awaited, Bool.and_eq_true, beq_iff_eq] at hfound
    exact hfound.1.1.2
  rw [Takes, watch_reapEntry c i]
  refine .single (.collect _ hc hchild (hn.below c hc) (fun q hq => ?_) (fun q _ => ?_) ?_)
  · exact ((mem_swapRemove hn.once hi).mp hq).1
  · exact member_reapEntry c i q
  · intro q hq he
    obtain ⟨hq, hne⟩ := (mem_swapRemove hn.once hi).mp hq
    exact hne (hn.distinct q hq c hc he)

theorem takes_report (hn : k.roster.Numbered) {self p : Nat} {wpid options : BitVec 32}
    (hs : k.stoppedChild self wpid options = some p) :
    Takes k (k.modify p fun t => {t with stoppedReported := true}) inside
      (update inside self none) log (log ++ [.reported (k.procs p).pid]) := by
  have hp : p ∈ k.table := mem_reverse.mp (mem_of_find?_eq_some hs)
  have hfound := find?_some hs
  simp only [Bool.and_eq_true, beq_iff_eq, Bool.not_eq_true'] at hfound
  rw [Takes, watch_modify, member_modify p rfl]
  refine .single (.report hp hfound.1.2 hfound.2 fun q hq he => ?_)
  exact hn.distinct q hq p hp he

theorem takes_park (hn : k.roster.Numbered) {self : Nat} {wpid options : BitVec 32}
    (hnone : k.table.findIdx? (fun p => k.awaited self wpid p && (k.procs p).state == .zombie) =
      none) :
    Takes k (k.modify self fun t =>
        {t with state := .blocked, waitingFor := if (0#32).slt wpid then wpid else 0})
      inside (update inside self (some ⟨wpid, options⟩)) log log := by
  have hlive (c : Nat) (hc : c ∈ k.table) (ha : (k.cores.watch inside log).Awaits self wpid c) :
      (k.member c).state ≠ .zombie := by
    have hc0 : c ≠ 0 := fun he => hn.nonnull (he ▸ hc)
    have hfree := findIdx?_eq_none_iff.mp hnone c hc
    rw [(awaited_iff self wpid hc0).mpr ha, Bool.true_and] at hfree
    exact beq_eq_false_iff_ne.mp hfree
  rw [Takes, watch_modify, member_modify self rfl]
  exact .single (.park (w := k.cores.watch inside log) (r := ⟨wpid, options⟩) hlive)

/-- A pass of `do_waitpid`. -/
theorem stoppedChild_none_of_any {wpid options : BitVec 32}
    (hany : k.table.any (k.awaited self wpid) = false) :
    k.stoppedChild self wpid options = none := by
  simp only [stoppedChild, find?_eq_none, mem_reverse, Bool.and_eq_true]
  intro p hp ha
  exact any_eq_false.mp hany p hp ha.1.1.1

theorem takes_doWaitpid (hn : k.roster.Numbered) (self : Nat) (wpid options : BitVec 32) :
    Takes k (k.doWaitpid self wpid options).1 inside (update inside self
        (if (k.doWaitpid self wpid options).2 = .parked then some ⟨wpid, options⟩ else none))
      log (log ++ Waits.notices k (.waitpid self wpid options)) := by
  simp only [Waits.notices, doWaitpid]
  split
  case isTrue hany =>
    rw [collected_none_of_any hany, stoppedChild_none_of_any hany, append_nil]
    exact .single (.leave self)
  case isFalse =>
    split
    case h_1 zi hzi =>
      obtain ⟨hget, hcol⟩ := collected_of_findIdx hzi
      rw [hcol]
      exact takes_collect hn hget hcol
    case h_2 hnone =>
      rw [collected_none_of_findIdx hnone]
      cases hs : k.stoppedChild self wpid options with
      | some p => exact takes_report hn hs
      | none =>
        rw [append_nil]
        split
        · exact .single (.leave self)
        · exact takes_park hn hnone

end

/-- A task that `reap_zombies` frees has no parent that is a live user process. -/
theorem reapedFrom_orphans (turns : Nat) : ∀ (k : Kernel) (i : Nat), k.roster.Numbered →
    ∀ p ∈ k.reapedFrom turns i, ∀ q ∈ k.table, (k.procs q).pid = (k.procs p).ppid →
      (k.procs q).pageDirectory = 0 ∨ (k.procs q).state = .zombie := by
  induction turns with
  | zero => exact fun k i _ p hp => absurd hp not_mem_nil
  | succ turns ih =>
    intro k i hn p hp q hq hparent
    simp only [reapedFrom] at hp
    split at hp
    · exact absurd hp not_mem_nil
    case h_2 r hi =>
      split at hp
      case isTrue hr =>
        simp only [reapable, Bool.and_eq_true, beq_iff_eq] at hr
        rcases mem_cons.mp hp with hpr | hlater
        · have hfind : k.findProcess (k.procs r).ppid = some q := by
            rw [← hpr, ← hparent]
            exact hn.findProcess hq
          have hdead := hr.2
          rw [hfind] at hdead
          simp only [Bool.or_eq_true, beq_iff_eq] at hdead
          exact hdead
        · by_cases hqr : q = r
          · rw [hqr]
            exact .inr hr.1.1.2
          have hn' : (k.reapEntry r i).roster.Numbered := by
            have hstep : Roster.Step Roster.PidLeft Roster.Alone k.roster _ := .reap hi
            rw [roster_reapEntry]
            exact Roster.numbered_step hn hstep
          have hmember (x : Nat) := member_reapEntry (k := k) r i x
          have hdir : ((k.reapEntry r i).procs q).pageDirectory = (k.procs q).pageDirectory :=
            core_reapEntry Core.pageDirectory (fun _ _ => rfl) (fun _ => rfl) (fun _ _ => rfl)
              (fun _ => rfl) r i q
          have hstate : ((k.reapEntry r i).procs q).state = (k.procs q).state :=
            congrArg Member.state (hmember q)
          have hq' : q ∈ (k.reapEntry r i).table := by
            rw [reapEntry_table]
            exact (mem_swapRemove hn.once hi).mpr ⟨hq, hqr⟩
          rw [← hdir, ← hstate]
          refine ih _ i hn' p hlater q hq' ?_
          exact (congrArg Member.pid (hmember q)).trans
            (hparent.trans (congrArg Member.ppid (hmember p)).symm)
      case isFalse => exact ih k (i + 1) hn p hp q hq hparent

end Kernel

end Nyx.Process
