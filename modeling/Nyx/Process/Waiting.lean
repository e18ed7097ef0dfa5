import Nyx.Process.Cores

/-! Parents that wait for their children.

`Watch` is what the waiting protocol is about: who is whose child, who runs, sleeps, is
stopped or dead, what each task asked for in the `do_waitpid` it is inside of, and what
parents have been told. A step is what one system call can do to that. An exit or a stop wakes
the parent that waits for it in the same step, and a parent goes to sleep only when nothing it
asked for is there: so a sleeper never misses an exit (`Safe`). -/
namespace Nyx.Process
open Function List

/-- The part of a task's record that waiting depends on. -/
structure Member where
  pid : BitVec 32
  ppid : BitVec 32
  state : PState
  waitingFor : BitVec 32
  reported : Bool

/-- What happens to a child as far as its parent is concerned: it stops, its stop is
reported, or its exit status is given to the task with the pid `caller`. -/
inductive Notice where
  | stopped (pid : BitVec 32)
  | reported (pid : BitVec 32)
  | exited (caller ppid pid status : BitVec 32)
deriving DecidableEq

/-- The arguments of a `do_waitpid`. -/
structure Request where
  wpid : BitVec 32
  options : BitVec 32
deriving DecidableEq

/-- The value of `waiting_for` while the request sleeps. -/
def Request.target (r : Request) : BitVec 32 := if (0#32).slt r.wpid then r.wpid else 0

@[ext] structure Watch where
  table : List Nat
  member : Nat → Member
  next : Nat
  inside : Nat → Option Request
  log : List Notice

namespace Watch

/-! ### The log -/

/-- The child whose status a notice hands over. -/
def exitedPid : Notice → Option (BitVec 32)
  | .exited _ _ pid _ => some pid
  | _ => none

/-- A notice about the stops of `pid` opens or settles one. -/
def settle (pid : BitVec 32) (unreported : Bool) : Notice → Bool
  | .stopped q => q == pid || unreported
  | .reported q => q != pid && unreported
  | .exited .. => unreported

/-- Has `pid` stopped since its last stop was reported? -/
def unreported (pid : BitVec 32) (log : List Notice) : Bool := log.foldl (settle pid) false

def ReportsOnce (log : List Notice) : Prop :=
  ∀ told pid rest, log = told ++ .reported pid :: rest → unreported pid told = true

theorem unreported_append (pid : BitVec 32) (log : List Notice) (n : Notice) :
    unreported pid (log ++ [n]) = settle pid (unreported pid log) n := by
  rw [unreported, foldl_append]
  rfl

variable {w' : Watch} {self : Nat} {n : Notice}

variable {log : List Notice} {state : PState} {m m' : Member}

theorem reportsOnce_append (h : ReportsOnce log)
    (hn : ∀ pid, n = .reported pid → unreported pid log = true) : ReportsOnce (log ++ [n]) := by
  intro told pid rest he
  rcases eq_nil_or_concat' rest with rfl | ⟨init, last, rfl⟩
  · obtain ⟨hlog, hlast⟩ := append_inj' he rfl
    rw [← hlog]
    exact hn pid (singleton_inj.mp hlast)
  · rw [← cons_append, ← append_assoc] at he
    exact h told pid init (append_inj' he rfl).1

/-! ### Steps -/

variable (w : Watch)

/-- `c` is a child that `p` asks for. -/
def Awaits (p : Nat) (wpid : BitVec 32) (c : Nat) : Prop :=
  (w.member c).ppid = (w.member p).pid ∧ ((0#32).slt wpid = true → (w.member c).pid = wpid)

/-- Nothing happens to the task that waiting depends on, except that it may be woken. -/
structure Kept (m m' : Member) : Prop where
  pid : m'.pid = m.pid
  ppid : m'.ppid = m.ppid
  reported : m'.reported = m.reported
  state : m'.state = m.state ∧ m'.waitingFor = m.waitingFor ∨ m'.state = .run

/-- The task `child` stops or dies, and its parent is woken if it waits for that. -/
structure Falls (member' : Nat → Member) (child : Nat) (state : PState) : Prop where
  pid : (member' child).pid = (w.member child).pid
  ppid : (member' child).ppid = (w.member child).ppid
  state : (member' child).state = state
  others : ∀ p ∈ w.table, p ≠ child → Kept (w.member p) (member' p)
  wakes : ∀ p ∈ w.table, p ≠ child → (w.member p).pid = (w.member child).ppid →
    (w.member p).waitingFor = (w.member child).pid ∨ (w.member p).waitingFor = 0 →
      (member' p).state ≠ .blocked

inductive Step (w : Watch) : Watch → Prop
  /-- A call that concerns no child, or a signal. -/
  | calm {member' : Nat → Member} (hkept : ∀ p ∈ w.table, Kept (w.member p) (member' p)) :
    Step w {w with member := member'}
  | spend {member' : Nat → Member} (hsame : ∀ p ∈ w.table, member' p = w.member p) :
    Step w {w with member := member', next := w.next + 1}
  | enter {p : Nat} {member' : Nat → Member} (hsame : ∀ q ∈ w.table, member' q = w.member q)
      (hstate : (member' p).state = .run) (hpid : (member' p).pid.toNat = w.next) :
    Step w {w with table := w.table ++ [p], member := member', next := w.next + 1}
  | die {self : Nat} {member' : Nat → Member} (h : w.Falls member' self .zombie) :
    Step w {w with member := member'}
  | stop {self : Nat} {member' : Nat → Member} (h : w.Falls member' self .stopped) :
    Step w {w with member := member', log := w.log ++ [.stopped (w.member self).pid]}
  /-- A task goes to sleep outside of `do_waitpid`. -/
  | sleep {self : Nat} {member' : Nat → Member} (hin : w.inside self = none)
      (hself : Kept (w.member self) {member' self with state := .run})
      (hstate : (member' self).state = .blocked)
      (hkept : ∀ p ∈ w.table, p ≠ self → Kept (w.member p) (member' p)) :
    Step w {w with member := member'}
  /-- A task goes to sleep in `do_waitpid`, none of the children it asked for being dead. -/
  | park {self : Nat} {r : Request}
      (hnone : ∀ c ∈ w.table, w.Awaits self r.wpid c → (w.member c).state ≠ .zombie) :
    Step w
      { w with
        member := Function.update w.member self
          {w.member self with state := .blocked, waitingFor := r.target}
        inside := Function.update w.inside self (some r) }
  /-- `do_waitpid` returns without news. -/
  | leave (self : Nat) : Step w {w with inside := Function.update w.inside self none}
  /-- `do_waitpid` reports a stop of the child `p`. -/
  | report {self p : Nat} (hp : p ∈ w.table) (hstate : (w.member p).state = .stopped)
      (hnew : (w.member p).reported = false)
      (hone : ∀ q ∈ w.table, (w.member q).pid = (w.member p).pid → q = p) :
    Step w
      { w with
        member := Function.update w.member p {w.member p with reported := true}
        inside := Function.update w.inside self none
        log := w.log ++ [.reported (w.member p).pid] }
  /-- `do_waitpid` collects the dead child `c`. -/
  | collect {self c : Nat} {table' : List Nat} {member' : Nat → Member} (status : BitVec 32)
      (hc : c ∈ w.table) (hchild : (w.member c).ppid = (w.member self).pid)
      (hbelow : (w.member c).pid.toNat < w.next) (hsub : table' ⊆ w.table)
      (hsame : ∀ q ∈ table', member' q = w.member q)
      (hgone : ∀ q ∈ table', (w.member q).pid ≠ (w.member c).pid) :
    Step w
      { w with
        table := table'
        member := member'
        inside := Function.update w.inside self none
        log := w.log ++ [.exited (w.member self).pid (w.member c).ppid (w.member c).pid status] }
  /-- `reap_zombies` frees a task. -/
  | reap {table' : List Nat} {member' : Nat → Member} (hsub : table' ⊆ w.table)
      (hsame : ∀ q ∈ table', member' q = w.member q) :
    Step w {w with table := table', member := member'}

/-! ### Safety -/

/-- A task that sleeps in `do_waitpid` has asked for no child that is dead, and `waiting_for`
says what it asked for. -/
def Awake (w : Watch) : Prop :=
  ∀ p ∈ w.table, (w.member p).state = .blocked → ∀ r, w.inside p = some r →
    (w.member p).waitingFor = r.target ∧
      ∀ c ∈ w.table, w.Awaits p r.wpid c → (w.member c).state ≠ .zombie

/-- A stop that `do_waitpid` would report was not reported yet. -/
def Pending (w : Watch) : Prop :=
  ∀ p ∈ w.table, (w.member p).state = .stopped → (w.member p).reported = false →
    unreported (w.member p).pid w.log = true

/-- The children whose status was handed over, in order. -/
def exits (w : Watch) : List (BitVec 32) := w.log.filterMap exitedPid

structure Safe (w : Watch) : Prop where
  awake : w.Awake
  pending : w.Pending
  past : ∀ pid ∈ w.exits, pid.toNat < w.next ∧ ∀ p ∈ w.table, (w.member p).pid ≠ pid
  once : w.exits.Nodup
  parent : ∀ caller ppid pid status, .exited caller ppid pid status ∈ w.log → caller = ppid
  reports : ReportsOnce w.log

variable {w : Watch} {member' : Nat → Member}

/-- Tasks that are merely woken ask for the same children. -/
theorem Awaits.of_kept {p c : Nat} {wpid : BitVec 32} (h : w'.Awaits p wpid c)
    (hp : (w'.member p).pid = (w.member p).pid) (hcpid : (w'.member c).pid = (w.member c).pid)
    (hcppid : (w'.member c).ppid = (w.member c).ppid) : w.Awaits p wpid c := by
  refine ⟨?_, fun hpos => ?_⟩
  · rw [← hp, ← hcppid]
    exact h.1
  · rw [← hcpid]
    exact h.2 hpos

/-- Being woken makes nobody a sleeper. -/
theorem Kept.unchanged (h : Kept m m') (hrun : m'.state ≠ .run) :
    m'.state = m.state ∧ m'.waitingFor = m.waitingFor := h.state.resolve_right hrun

theorem Kept.of_eq (h : m' = m) : Kept m m' := by
  rw [h]
  exact ⟨rfl, rfl, rfl, .inl ⟨rfl, rfl⟩⟩

theorem Kept.trans {m m' m'' : Member} (h : Kept m m') (h' : Kept m' m'') : Kept m m'' := by
  refine ⟨h'.pid.trans h.pid, h'.ppid.trans h.ppid, h'.reported.trans h.reported, ?_⟩
  rcases h'.state with ⟨hs', hw'⟩ | hrun
  · rcases h.state with ⟨hs, hw⟩ | hrun
    · exact .inl ⟨hs'.trans hs, hw'.trans hw⟩
    · exact .inr (hs'.trans hrun)
  · exact .inr hrun

/-- The table shrinks and what is left of it is merely woken. -/
theorem Awake.kept (h : w.Awake) (hsub : w'.table ⊆ w.table)
    (hkept : ∀ p ∈ w'.table, Kept (w.member p) (w'.member p))
    (hinside : ∀ p r, w'.inside p = some r → w.inside p = some r) : w'.Awake := by
  intro p hp hstate r hr
  have hkp := hkept p hp
  obtain ⟨hs, hw⟩ := hkp.unchanged fun he => nomatch hstate.symm.trans he
  obtain ⟨htarget, hnone⟩ := h p (hsub hp) (hs ▸ hstate) r (hinside p r hr)
  refine ⟨hw.trans htarget, fun c hc ha hz => ?_⟩
  have hkc := hkept c hc
  have hsame := (hkc.unchanged fun he => nomatch hz.symm.trans he).1
  exact hnone c (hsub hc) (ha.of_kept hkp.pid hkc.pid hkc.ppid) (hsame ▸ hz)

theorem Pending.kept {w' : Watch} (h : w.Pending) (hsub : w'.table ⊆ w.table)
    (hkept : ∀ p ∈ w'.table, Kept (w.member p) (w'.member p))
    (hlog : ∀ p ∈ w'.table, unreported (w.member p).pid w.log = true →
      unreported (w.member p).pid w'.log = true) : w'.Pending := by
  intro p hp hstate hnew
  have hkp := hkept p hp
  have hs := (hkp.unchanged fun he => nomatch hstate.symm.trans he).1
  rw [hkp.pid]
  exact hlog p hp (h p (hsub hp) (hs ▸ hstate) (hkp.reported ▸ hnew))

/-- What was handed over stays handed over while nothing new is. -/
theorem past_kept (w' : Watch) (h : w.Safe) (hsub : w'.table ⊆ w.table) (hnext : w.next ≤ w'.next)
    (hpid : ∀ p ∈ w'.table, (w'.member p).pid = (w.member p).pid) (pid : BitVec 32)
    (hmem : pid ∈ w.exits) : pid.toNat < w'.next ∧ ∀ p ∈ w'.table, (w'.member p).pid ≠ pid := by
  obtain ⟨hlt, hne⟩ := h.past pid hmem
  refine ⟨Nat.lt_of_lt_of_le hlt hnext, fun p hp => ?_⟩
  rw [hpid p hp]
  exact hne p (hsub hp)

/-- A step that tells nobody anything. -/
theorem Safe.quiet (h : w.Safe) (hsub : w'.table ⊆ w.table) (hnext : w.next ≤ w'.next)
    (hkept : ∀ p ∈ w'.table, Kept (w.member p) (w'.member p))
    (hinside : ∀ p r, w'.inside p = some r → w.inside p = some r) (hlog : w'.log = w.log) :
    w'.Safe := by
  have hexits : w'.exits = w.exits := congrArg (filterMap exitedPid) hlog
  refine ⟨h.awake.kept hsub hkept hinside, h.pending.kept hsub hkept ?_, ?_, ?_, ?_, ?_⟩
  · exact fun p _ hu => hlog ▸ hu
  · rw [hexits]
    exact past_kept w' h hsub hnext fun p hp => (hkept p hp).pid
  · exact hexits ▸ h.once
  · exact hlog ▸ h.parent
  · exact hlog ▸ h.reports

/-- The parent of a task that stops or dies does not sleep through it. -/
theorem awake_falls (h : w.Awake) (hfalls : w.Falls member' self state) (hstate : state ≠ .blocked)
    (log : List Notice) : Awake {w with member := member', log := log} := by
  intro p hp hblocked r hr
  have hps : p ≠ self := fun he => hstate (hfalls.state.symm.trans (he ▸ hblocked))
  have hkp := hfalls.others p hp hps
  obtain ⟨hs, hw⟩ := hkp.unchanged fun he => nomatch hblocked.symm.trans he
  obtain ⟨htarget, hnone⟩ := h p hp (hs ▸ hblocked) r hr
  refine ⟨hw.trans htarget, fun c hc ha hz => ?_⟩
  by_cases hcs : c = self
  · rw [hcs] at ha
    have hchild : w.Awaits p r.wpid self := ha.of_kept hkp.pid hfalls.pid hfalls.ppid
    refine hfalls.wakes p hp hps hchild.1.symm ?_ hblocked
    rw [htarget, Request.target]
    split
    case isTrue hpos => exact .inl (hchild.2 hpos).symm
    case isFalse => exact .inr rfl
  · have hkc := hfalls.others c hc hcs
    have hsame := (hkc.unchanged fun he => nomatch hz.symm.trans he).1
    exact hnone c hc (ha.of_kept hkp.pid hkc.pid hkc.ppid) (hsame ▸ hz)

theorem falls_pid (hfalls : w.Falls member' self state) (p : Nat) (hp : p ∈ w.table) :
    (member' p).pid = (w.member p).pid := by
  by_cases hps : p = self
  · rw [hps]
    exact hfalls.pid
  · exact (hfalls.others p hp hps).pid

/-- A new notice that hands over no status. -/
theorem exits_append (hn : exitedPid n = none) (log : List Notice) :
    (log ++ [n]).filterMap exitedPid = log.filterMap exitedPid := by
  rw [filterMap_append, filterMap_cons_none hn, filterMap_nil, append_nil]

theorem mem_log_append {caller ppid pid status : BitVec 32}
    (h : ∀ caller ppid pid status, .exited caller ppid pid status ∈ log → caller = ppid)
    (hn : ∀ caller ppid pid status, n = .exited caller ppid pid status → caller = ppid)
    (hmem : .exited caller ppid pid status ∈ log ++ [n]) : caller = ppid := by
  rcases mem_append.mp hmem with hold | hnew
  · exact h caller ppid pid status hold
  · exact hn caller ppid pid status (mem_singleton.mp hnew).symm

theorem safe_die (h : w.Safe) (hfalls : w.Falls member' self .zombie) :
    Safe {w with member := member'} := by
  refine ⟨awake_falls h.awake hfalls nofun w.log, ?_, ?_, h.once, h.parent, h.reports⟩
  · intro p hp hstate hnew
    have hps : p ≠ self := by
      intro he
      rw [he] at hstate
      exact nomatch hfalls.state.symm.trans hstate
    have hkp := hfalls.others p hp hps
    have hs := (hkp.unchanged fun he => nomatch hstate.symm.trans he).1
    rw [hkp.pid]
    exact h.pending p hp (hs ▸ hstate) (hkp.reported ▸ hnew)
  · intro pid hpid
    exact past_kept {w with member := member'} h (List.Subset.refl _) (Nat.le_refl _)
      (falls_pid hfalls) pid hpid

theorem safe_stop (h : w.Safe) (hfalls : w.Falls member' self .stopped) :
    Safe {w with member := member', log := w.log ++ [.stopped (w.member self).pid]} := by
  have hexits : (w.log ++ [Notice.stopped (w.member self).pid]).filterMap exitedPid = w.exits :=
    exits_append rfl w.log
  refine ⟨awake_falls h.awake hfalls nofun _, ?_, ?_, ?_, ?_, ?_⟩
  · intro p hp hstate hnew
    rw [unreported_append, settle, Bool.or_eq_true, beq_iff_eq]
    by_cases hps : p = self
    · rw [hps]
      exact .inl hfalls.pid.symm
    have hkp := hfalls.others p hp hps
    have hs := (hkp.unchanged fun he => nomatch hstate.symm.trans he).1
    refine .inr ?_
    rw [hkp.pid]
    exact h.pending p hp (hs ▸ hstate) (hkp.reported ▸ hnew)
  · intro pid hpid
    rw [exits, hexits] at hpid
    exact past_kept {w with member := member'} h (List.Subset.refl _) (Nat.le_refl _)
      (falls_pid hfalls) pid hpid
  · rw [exits, hexits]
    exact h.once
  · exact fun _ _ _ _ => mem_log_append h.parent nofun
  · exact reportsOnce_append h.reports nofun

theorem safe_enter {p : Nat} (h : w.Safe) (hsame : ∀ q ∈ w.table, member' q = w.member q)
    (hstate : (member' p).state = .run) (hpid : (member' p).pid.toNat = w.next) :
    Safe {w with table := w.table ++ [p], member := member', next := w.next + 1} := by
  have hold : Safe {w with member := member'} :=
    h.quiet (List.Subset.refl _) (Nat.le_refl _) (fun q hq => .of_eq (hsame q hq))
      (fun _ _ hr => hr) rfl
  have hmem {q : Nat} (hq : q ∈ w.table ++ [p]) : q ∈ w.table ∨ q = p :=
    (mem_append.mp hq).imp_right mem_singleton.mp
  refine ⟨fun q hq hb r hr => ?_, fun q hq hs hn => ?_, fun pid hmem' => ?_, h.once, h.parent,
    h.reports⟩
  · rcases hmem hq with hq | he
    · obtain ⟨htarget, hnone⟩ := hold.awake q hq hb r hr
      refine ⟨htarget, fun c hc ha => ?_⟩
      rcases hmem hc with hc | he
      · exact hnone c hc ha
      rw [he, hstate]
      exact nofun
    · rw [he] at hb
      exact nomatch hstate.symm.trans hb
  · rcases hmem hq with hq | he
    · exact hold.pending q hq hs hn
    · rw [he] at hs
      exact nomatch hstate.symm.trans hs
  · obtain ⟨hlt, hne⟩ := hold.past pid hmem'
    refine ⟨Nat.lt_succ_of_lt hlt, fun q hq he => ?_⟩
    rcases hmem hq with hq | hqp
    · exact hne q hq he
    -- The new pid is the next one, and all the others are below it.
    have hlt' : pid.toNat < w.next := hlt
    rw [← he, hqp] at hlt'
    exact Nat.lt_irrefl _ (hpid ▸ hlt')

/-- A task goes to sleep: no other task's sleep is affected. -/
theorem awake_sleeper {w' : Watch} {self : Nat} (h : w.Awake) (htable : w'.table = w.table)
    (hstate : (w'.member self).state = .blocked)
    (hkept : ∀ p ∈ w.table, p ≠ self → Kept (w.member p) (w'.member p))
    (hinside : ∀ p, p ≠ self → w'.inside p = w.inside p)
    (hself : ∀ r, w'.inside self = some r → (w'.member self).waitingFor = r.target ∧
      ∀ c ∈ w'.table, w'.Awaits self r.wpid c → (w'.member c).state ≠ .zombie) : w'.Awake := by
  intro p hp hb r hr
  by_cases hps : p = self
  · rw [hps] at hr ⊢
    exact hself r hr
  rw [htable] at hp
  have hkp := hkept p hp hps
  obtain ⟨hs, hw⟩ := hkp.unchanged fun he => nomatch hb.symm.trans he
  obtain ⟨htarget, hnone⟩ := h p hp (hs ▸ hb) r (hinside p hps ▸ hr)
  refine ⟨hw.trans htarget, fun c hc ha hz => ?_⟩
  by_cases hcs : c = self
  · rw [hcs] at hz
    exact nomatch hstate.symm.trans hz
  rw [htable] at hc
  have hkc := hkept c hc hcs
  have hsame := (hkc.unchanged fun he => nomatch hz.symm.trans he).1
  exact hnone c hc (ha.of_kept hkp.pid hkc.pid hkc.ppid) (hsame ▸ hz)

/-- The parts of safety that a task's going to sleep does not touch. -/
theorem Safe.asleep (h : w.Safe) (hawake : w'.Awake) (htable : w'.table = w.table)
    (hnext : w'.next = w.next) (hlog : w'.log = w.log) (hstate : (w'.member self).state = .blocked)
    (hpid : (w'.member self).pid = (w.member self).pid)
    (hkept : ∀ p ∈ w.table, p ≠ self → Kept (w.member p) (w'.member p)) : w'.Safe := by
  have hexits : w'.exits = w.exits := congrArg (filterMap exitedPid) hlog
  refine ⟨hawake, fun p hp hs hn => ?_, ?_, hexits ▸ h.once, hlog ▸ h.parent, hlog ▸ h.reports⟩
  · rw [htable] at hp
    have hps : p ≠ self := by
      intro he
      rw [he] at hs
      exact nomatch hstate.symm.trans hs
    have hkp := hkept p hp hps
    have hsame := (hkp.unchanged fun he => nomatch hs.symm.trans he).1
    rw [hkp.pid, hlog]
    exact h.pending p hp (hsame ▸ hs) (hkp.reported ▸ hn)
  · rw [hexits]
    refine past_kept w' h (fun p hp => htable ▸ hp) (Nat.le_of_eq hnext.symm) fun p hp => ?_
    by_cases hps : p = self
    · rw [hps]
      exact hpid
    · exact (hkept p (htable ▸ hp) hps).pid

theorem safe_park {r : Request} (h : w.Safe)
    (hnone : ∀ c ∈ w.table, w.Awaits self r.wpid c → (w.member c).state ≠ .zombie) :
    Safe
      { w with
        member := update w.member self
          {w.member self with state := .blocked, waitingFor := r.target}
        inside := update w.inside self (some r) } := by
  generalize hm : update w.member self _ = m
  have hself : m self = {w.member self with state := .blocked, waitingFor := r.target} := by
    rw [← hm]
    exact update_self ..
  have hother (p : Nat) (hp : p ≠ self) : m p = w.member p := by
    rw [← hm]
    exact update_of_ne hp ..
  have hpid (p : Nat) : (m p).pid = (w.member p).pid ∧ (m p).ppid = (w.member p).ppid := by
    by_cases hp : p = self
    · rw [hp, hself]
      exact ⟨rfl, rfl⟩
    rw [hother p hp]
    exact ⟨rfl, rfl⟩
  have hstate : (m self).state = .blocked := by rw [hself]
  have hkept (p : Nat) (_ : p ∈ w.table) (hp : p ≠ self) : Kept (w.member p) (m p) :=
    .of_eq (hother p hp)
  refine h.asleep (awake_sleeper h.awake rfl hstate hkept ?_ ?_) rfl rfl rfl hstate (hpid self).1
    hkept
  · exact fun p hp => update_of_ne hp ..
  intro r' hr
  have he : r = r' := Option.some.inj ((update_self self (some r) w.inside).symm.trans hr)
  rw [← he]
  refine ⟨congrArg Member.waitingFor hself, fun c hc ha => ?_⟩
  by_cases hcs : c = self
  · show (m c).state ≠ .zombie
    rw [hcs, hstate]
    exact nofun
  · show (m c).state ≠ .zombie
    rw [hother c hcs]
    exact hnone c hc (ha.of_kept (hpid self).1 (hpid c).1 (hpid c).2)

theorem safe_sleep (h : w.Safe) (hin : w.inside self = none)
    (hpid : (member' self).pid = (w.member self).pid) (hstate : (member' self).state = .blocked)
    (hkept : ∀ p ∈ w.table, p ≠ self → Kept (w.member p) (member' p)) :
    Safe {w with member := member'} := by
  refine h.asleep (awake_sleeper h.awake rfl hstate hkept (fun _ _ => rfl) ?_) rfl rfl rfl hstate
    hpid hkept
  exact fun r hr => nomatch hin.symm.trans hr

theorem inside_of_leave {self p : Nat} {r : Request}
    (h : update w.inside self none p = some r) : w.inside p = some r := by
  rw [update_apply] at h
  split at h
  · cases h
  · exact h

theorem safe_report {self p : Nat} (h : w.Safe) (hp : p ∈ w.table)
    (hstate : (w.member p).state = .stopped) (hnew : (w.member p).reported = false)
    (hone : ∀ q ∈ w.table, (w.member q).pid = (w.member p).pid → q = p) :
    Safe
      { w with
        member := update w.member p {w.member p with reported := true}
        inside := update w.inside self none
        log := w.log ++ [.reported (w.member p).pid] } := by
  generalize hm : update w.member p _ = m
  have hsame (q : Nat) (hq : q ≠ p) : m q = w.member q := by
    rw [← hm]
    exact update_of_ne hq ..
  have hself : m p = {w.member p with reported := true} := by
    rw [← hm]
    exact update_self ..
  have hview (q : Nat) : (m q).pid = (w.member q).pid ∧ (m q).ppid = (w.member q).ppid ∧
      (m q).state = (w.member q).state ∧ (m q).waitingFor = (w.member q).waitingFor := by
    by_cases hq : q = p
    · rw [hq, hself]
      exact ⟨rfl, rfl, rfl, rfl⟩
    rw [hsame q hq]
    exact ⟨rfl, rfl, rfl, rfl⟩
  have hexits : (w.log ++ [Notice.reported (w.member p).pid]).filterMap exitedPid = w.exits :=
    exits_append rfl w.log
  refine ⟨fun q hq hb r hr => ?_, fun q hq hs hn => ?_, fun pid hpid => ?_, ?_, ?_, ?_⟩
  · obtain ⟨_, _, hs, hw⟩ := hview q
    obtain ⟨htarget, hnone⟩ := h.awake q hq (hs ▸ hb) r (inside_of_leave hr)
    refine ⟨hw.trans htarget, fun c hc ha hz => ?_⟩
    refine hnone c hc (ha.of_kept (hview q).1 (hview c).1 (hview c).2.1) ?_
    exact (hview c).2.2.1.symm.trans hz
  · have hqp : q ≠ p := by
      intro he
      rw [he] at hn
      rw [show (m p).reported = true by rw [hself]] at hn
      cases hn
    have hpid : (w.member p).pid ≠ (m q).pid := by
      rw [(hview q).1]
      exact fun he => hqp (hone q hq he.symm)
    rw [unreported_append, settle, Bool.and_eq_true, bne_iff_ne]
    refine ⟨hpid, ?_⟩
    have hs' : (w.member q).state = .stopped := (hview q).2.2.1.symm.trans hs
    have hn' : (m q).reported = false := hn
    rw [hsame q hqp] at hn'
    rw [(hview q).1]
    exact h.pending q hq hs' hn'
  · rw [exits, hexits] at hpid
    exact past_kept {w with member := m} h (List.Subset.refl _) (Nat.le_refl _)
      (fun q _ => (hview q).1) pid hpid
  · rw [exits, hexits]
    exact h.once
  · exact fun _ _ _ _ => mem_log_append h.parent nofun
  · refine reportsOnce_append h.reports fun pid he => ?_
    cases he
    exact h.pending p hp hstate hnew

theorem safe_collect {self c : Nat} {table' : List Nat} (h : w.Safe) (status : BitVec 32)
    (hc : c ∈ w.table) (hchild : (w.member c).ppid = (w.member self).pid)
    (hbelow : (w.member c).pid.toNat < w.next) (hsub : table' ⊆ w.table)
    (hsame : ∀ q ∈ table', member' q = w.member q)
    (hgone : ∀ q ∈ table', (w.member q).pid ≠ (w.member c).pid) :
    Safe
      { w with
        table := table'
        member := member'
        inside := update w.inside self none
        log := w.log ++
          [.exited (w.member self).pid (w.member c).ppid (w.member c).pid status] } := by
  have hkept (q : Nat) (hq : q ∈ table') : Kept (w.member q) (member' q) := .of_eq (hsame q hq)
  have hexits : (w.log ++ [Notice.exited (w.member self).pid (w.member c).ppid (w.member c).pid
      status]).filterMap exitedPid = w.exits ++ [(w.member c).pid] := by
    rw [filterMap_append]
    rfl
  refine ⟨?_, ?_, fun pid hpid => ?_, ?_, ?_, ?_⟩
  · exact h.awake.kept hsub hkept fun p r hr => inside_of_leave hr
  · refine h.pending.kept hsub hkept fun q _ hu => ?_
    rw [unreported_append]
    exact hu
  · rw [exits, hexits] at hpid
    rcases mem_append.mp hpid with hold | hnew
    · exact past_kept {w with table := table', member := member'} h hsub (Nat.le_refl _)
        (fun q hq => (hkept q hq).pid) pid hold
    rw [mem_singleton.mp hnew]
    refine ⟨hbelow, fun q hq => ?_⟩
    show (member' q).pid ≠ _
    rw [hsame q hq]
    exact hgone q hq
  · rw [exits, hexits]
    refine nodup_append.mpr ⟨h.once, nodup_singleton _, fun pid hpid pid' hpid' he => ?_⟩
    rw [mem_singleton.mp hpid'] at he
    exact (h.past pid hpid).2 c hc he.symm
  · refine fun _ _ _ _ => mem_log_append h.parent fun _ _ _ _ he => ?_
    cases he
    exact hchild.symm
  · exact reportsOnce_append h.reports nofun

theorem safe_step (h : w.Safe) (hs : Step w w') : w'.Safe := by
  cases hs with
  | calm hkept =>
    exact h.quiet (List.Subset.refl _) (Nat.le_refl _) hkept (fun _ _ hr => hr) rfl
  | spend hsame =>
    exact h.quiet (List.Subset.refl _) (Nat.le_succ _) (fun p hp => .of_eq (hsame p hp))
      (fun _ _ hr => hr) rfl
  | enter hsame hstate hpid => exact safe_enter h hsame hstate hpid
  | die hfalls => exact safe_die h hfalls
  | stop hfalls => exact safe_stop h hfalls
  | sleep hin hself hstate hkept => exact safe_sleep h hin hself.pid hstate hkept
  | park hnone => exact safe_park h hnone
  | leave self =>
    exact h.quiet (List.Subset.refl _) (Nat.le_refl _) (fun _ _ => .of_eq rfl)
      (fun _ _ => inside_of_leave) rfl
  | report hp hstate hnew hone => exact safe_report h hp hstate hnew hone
  | collect status hc hchild hbelow hsub hsame hgone =>
    exact safe_collect h status hc hchild hbelow hsub hsame hgone
  | reap hsub hsame =>
    exact h.quiet hsub (Nat.le_refl _) (fun p hp => .of_eq (hsame p hp)) (fun _ _ hr => hr) rfl

theorem safe_steps (hs : Relation.ReflTransGen Step w w') (h : w.Safe) : w'.Safe := by
  induction hs with
  | refl => exact h
  | tail _ hs ih => exact safe_step ih hs

end Watch
end Nyx.Process
