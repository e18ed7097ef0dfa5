import Nyx.Process.Roster
import Nyx.Scheduler.Machine

/-! The tasks the cores are running are in the process table.

`sched_cur` is a pointer, so it must not outlive the record. `reap_zombies` and
`reap_user_process` clear it on every core before they free a task; `do_waitpid` does not,
and the child it collects may still be the current task of the core it died on. So the runs in
which every core's current task stays in the table are those in which no such child is
collected. -/
namespace Nyx.Scheduler
open Nyx.Process Nyx.Process.Kernel Nyx.Lib

namespace Smp
variable {s : Smp}

/-- Every core's current task, if it has one, is in the table. -/
def Valid (s : Smp) : Prop := ∀ c, s.schedCur c = 0 ∨ s.schedCur c ∈ s.kernel.table

theorem Valid.mono {s' : Smp} (h : s.Valid) (hcur : s'.schedCur = s.schedCur)
    (htable : s.kernel.table ⊆ s'.kernel.table) : s'.Valid := by
  intro c
  rw [hcur]
  exact (h c).imp_right fun hc => htable hc

theorem pick_mem {start idx p : Nat} {ok : Nat → Bool} (h : s.pick start ok = some (idx, p)) :
    p ∈ s.kernel.table := by
  obtain ⟨i, _, hi⟩ := List.exists_of_findSome?_eq_some h
  obtain ⟨q, hq, hp⟩ := Option.bind_eq_some_iff.mp hi
  split at hp
  · cases hp
    exact List.mem_of_getElem? hq
  · cases hp

/-! ### Ticks -/

/-- What a tick does to the current tasks: at most one core picks another, or none. -/
structure Ticked (s s' : Smp) : Prop where
  blocks : s'.kernel.blocks = s.kernel.blocks
  cur : s'.schedCur = s.schedCur ∨ ∃ cpu p, s'.schedCur = Function.update s.schedCur cpu p ∧
    (p = 0 ∨ p ∈ s.kernel.table)

theorem Ticked.valid {s' : Smp} (ht : Ticked s s') (h : s.Valid) : s'.Valid := by
  have htable : s'.kernel.table = s.kernel.table := congrArg Blocks.table ht.blocks
  intro c
  rcases ht.cur with hcur | ⟨cpu, p, hcur, hp⟩
  · rw [hcur, htable]
    exact h c
  rw [hcur, htable, Function.update_apply]
  split
  · exact hp
  · exact h c

theorem blocks_timers (tick : Tick) (k : Kernel) : (timers tick k).blocks = k.blocks := by
  have hwake (k : Kernel) (p : Nat) : (wakeSleeper tick k p).blocks = k.blocks := by
    simp only [wakeSleeper]
    split
    · rw [blocks_modify] <;> exact fun _ => rfl
    · rfl
  have halarm (k : Kernel) (p : Nat) : (raiseAlarm tick k p).blocks = k.blocks := by
    simp only [raiseAlarm]
    split
    · exact blocks_quiet (resources_signalRaise ..)
    · rfl
  exact (foldl_view Kernel.blocks halarm _ _).trans (foldl_view Kernel.blocks hwake k _)

theorem Ticked.after (s₁ : Smp) {s₂ : Smp} (h : s₁.kernel.blocks = s.kernel.blocks)
    (hcur : s₁.schedCur = s.schedCur) (h₂ : Ticked s₁ s₂) : Ticked s s₂ := by
  refine ⟨h₂.blocks.trans h, ?_⟩
  rw [← hcur, ← show s₁.kernel.table = s.kernel.table from congrArg Blocks.table h]
  exact h₂.cur

theorem ticked_nextTask (s : Smp) (cur : Nat) : Ticked s (s.nextTask cur) := by
  simp only [nextTask]
  split
  case h_1 idx p hpick => exact ⟨rfl, .inr ⟨bsp, p, rfl, .inr (pick_mem hpick)⟩⟩
  case h_2 => split <;> exact ⟨rfl, .inl rfl⟩

theorem ticked_schedule (s : Smp) (dormant : Bool) : Ticked s (s.schedule dormant) := by
  simp only [schedule]
  split
  · exact ⟨rfl, .inl rfl⟩
  case h_2 cur _ =>
    split
    · exact ⟨rfl, .inl rfl⟩
    split
    · exact ⟨rfl, .inl rfl⟩
    have hsaved : (s.saveContext cur).kernel = s.kernel ∧
        (s.saveContext cur).schedCur = s.schedCur := by
      simp only [saveContext]
      split <;> exact ⟨rfl, rfl⟩
    exact .after (s.saveContext cur) (congrArg Kernel.blocks hsaved.1) hsaved.2 (ticked_nextTask _ cur)

theorem ticked_irqSchedulerTick (s : Smp) (tick : Tick) : Ticked s (s.irqSchedulerTick tick) :=
  .after {s with kernel := timers tick s.kernel} (blocks_timers tick s.kernel) rfl
    (ticked_schedule _ _)

theorem ticked_apSchedulerTick (s : Smp) (cpu : Fin maxCpus) (busy : Bool) :
    Ticked s (s.apSchedulerTick cpu busy) := by
  have hnext (s : Smp) : Ticked s (s.apNextTask cpu) := by
    simp only [apNextTask]
    split
    case h_1 idx p hpick => exact ⟨rfl, .inr ⟨cpu, p, rfl, .inr (pick_mem hpick)⟩⟩
    case h_2 => exact ⟨rfl, .inr ⟨cpu, 0, rfl, .inl rfl⟩⟩
  simp only [apSchedulerTick]
  cases busy with
  | true =>
    rw [if_pos rfl]
    split <;> exact ⟨rfl, .inl rfl⟩
  | false =>
    rw [if_neg Bool.false_ne_true]
    split
    · exact hnext s
    · exact .after (s.setTurn _ _) rfl rfl (hnext _)

/-! ### Removals -/

theorem Valid.forget {k : Kernel} {p i : Nat} (h : s.Valid) (hnodup : s.kernel.table.Nodup)
    (hi : s.kernel.table[i]? = some p) (hk : k.table = swapRemove s.kernel.table i) :
    ({s with kernel := k}.schedForget p).Valid := by
  intro c
  have hcur : ({s with kernel := k}.schedForget p).schedCur c =
      if s.schedCur c = p then 0 else s.schedCur c := rfl
  have htable : ({s with kernel := k}.schedForget p).kernel.table = swapRemove s.kernel.table i := hk
  rw [hcur, htable]
  split
  · exact .inl rfl
  case isFalse hne => exact (h c).imp_right fun hc => (mem_swapRemove hnodup hi).mpr ⟨hc, hne⟩

theorem reapFrom_kernel (turns : Nat) : ∀ (s : Smp) (i : Nat),
    (s.reapFrom turns i).kernel = s.kernel.reapFrom turns i := by
  induction turns with
  | zero => exact fun s i => rfl
  | succ turns ih =>
    intro s i
    simp only [reapFrom, Kernel.reapFrom]
    cases s.kernel.table[i]? with
    | none => rfl
    | some p =>
      dsimp only
      split
      · exact ih _ _
      · exact ih _ _

theorem valid_reapFrom (turns : Nat) : ∀ (s : Smp) (i : Nat), s.kernel.table.Nodup → s.Valid →
    (s.reapFrom turns i).Valid := by
  induction turns with
  | zero => exact fun s i _ h => h
  | succ turns ih =>
    intro s i hnodup h
    simp only [reapFrom]
    split
    · exact h
    case h_2 p hi =>
      split
      · have htable : (s.reapEntry p i).kernel.table = swapRemove s.kernel.table i :=
          reapEntry_table s.kernel p i
        refine ih _ i ?_ (h.forget hnodup hi (reapEntry_table s.kernel p i))
        rw [htable]
        exact nodup_swapRemove hnodup hi
      · exact ih s (i + 1) hnodup h

theorem destroyProcess_kernel (s : Smp) (pid : BitVec 64) :
    (s.destroyProcess pid).kernel = s.kernel.destroyProcess pid := by
  simp only [destroyProcess]
  split
  case h_1 hnone => simp only [Kernel.destroyProcess, hnone]
  case h_2 p hp =>
    split
    · rfl
    case isFalse hm =>
      simp only [Kernel.destroyProcess, hp, if_neg hm]
      rfl

theorem valid_destroyProcess (pid : BitVec 64) (hnodup : s.kernel.table.Nodup) (h : s.Valid) :
    (s.destroyProcess pid).Valid := by
  simp only [destroyProcess]
  split
  · exact h
  case h_2 p hp =>
    split
    case isTrue hm =>
      have hroster : (s.kernel.destroyProcess pid).roster = s.kernel.roster := by
        simp only [Kernel.destroyProcess, hp, if_pos hm]
        refine (roster_wakeWaiters ..).trans (roster_modify _ _ ?_)
        exact fun _ => rfl
      have htable : (s.kernel.destroyProcess pid).table = s.kernel.table :=
        congrArg Roster.table hroster
      exact h.mono rfl fun q hq => htable ▸ hq
    case isFalse =>
      have hmem : p ∈ s.kernel.table := List.mem_of_find?_eq_some hp
      refine h.forget hnodup ?_ (reapUserProcess_table hmem)
      exact List.getElem?_idxOf hmem

/-! ### Calls -/

theorem placed_same (s : Smp) (k : Kernel) (block : Nat) (turn : Turn) :
    (s.placed k block turn).kernel = k ∧ (s.placed k block turn).schedCur = s.schedCur := by
  simp only [placed]
  split <;> exact ⟨rfl, rfl⟩

theorem placedUser_same (s : Smp) (k : Kernel) (block : Nat) :
    (s.placedUser k block).kernel = k ∧ (s.placedUser k block).schedCur = s.schedCur := by
  simp only [placedUser]
  split
  · split <;> exact s.placed_same k block _
  · exact s.placed_same k block _

theorem process_kernel (s : Smp) (op : Op) : (s.process op).kernel = perform s.kernel op := by
  cases op with
  | createProcess => exact (s.placed_same ..).1
  | load => exact (s.placedUser_same ..).1
  | spawn => exact (s.placedUser_same ..).1
  | fork => exact (s.placed_same ..).1
  | clone => exact (s.placed_same ..).1
  | reapZombies => exact reapFrom_kernel _ s 0
  | destroyProcess pid => exact s.destroyProcess_kernel pid
  | _ => rfl

/-- Only the removals touch the current tasks. -/
theorem process_schedCur (s : Smp) (op : Op) (hz : op ≠ .reapZombies)
    (hd : ∀ pid, op ≠ .destroyProcess pid) : (s.process op).schedCur = s.schedCur := by
  cases op with
  | createProcess => exact (s.placed_same ..).2
  | load => exact (s.placedUser_same ..).2
  | spawn => exact (s.placedUser_same ..).2
  | fork => exact (s.placed_same ..).2
  | clone => exact (s.placed_same ..).2
  | reapZombies => exact absurd rfl hz
  | destroyProcess pid => exact absurd rfl (hd pid)
  | _ => rfl

/-- What `do_waitpid` leaves of the table. -/
theorem doWaitpid_table {k : Kernel} (hnodup : k.table.Nodup) (self : Nat)
    (wpid options : BitVec 32) (q : Nat) : q ∈ (k.doWaitpid self wpid options).1.table ↔
      q ∈ k.table ∧ k.collected self wpid ≠ some q := by
  simp only [doWaitpid]
  split
  case isTrue hany =>
    rw [collected_none_of_any hany]
    exact ⟨fun h => ⟨h, by simp⟩, fun h => h.1⟩
  case isFalse =>
    split
    case h_1 zi hzi =>
      obtain ⟨hget, hcol⟩ := collected_of_findIdx hzi
      rw [hcol, reapEntry_table, mem_swapRemove hnodup hget, ne_eq, ne_eq, Option.some.injEq,
        eq_comm]
    case h_2 hnone =>
      rw [collected_none_of_findIdx hnone]
      have hsame : q ∈ k.table ↔ q ∈ k.table ∧ none ≠ some q := ⟨fun h => ⟨h, by simp⟩, fun h => h.1⟩
      split
      · exact hsame
      · split <;> exact hsame

theorem table_perform {k : Kernel} (hk : k.blocks.Owned) {op : Op}
    (hcaller : ∀ p ∈ op.caller, p ∈ k.table) (hz : op ≠ .reapZombies)
    (hd : ∀ pid, op ≠ .destroyProcess pid) (hw : ∀ self wpid options, op ≠ .waitpid self wpid options) :
    k.table ⊆ (perform k op).table := by
  cases hop : op.releases with
  | false =>
    have hchange : Changes (fun _ => True) (fun _ _ => True) k (perform k op) :=
      roster_change k op hk trivial hcaller (fun _ _ _ _ _ _ => trivial) hop
    exact hchange.table
  | true =>
    cases op with
    | exit self code =>
      have htable : (k.exit self code true).table = k.table :=
        congrArg Roster.table (k.roster_exit self code true)
      exact fun q hq => show q ∈ (k.exit self code true).table from htable ▸ hq
    | userFault self sig writable =>
      have htable : (k.userFault self sig writable).table = k.table := by
        rcases k.roster_userFault self sig writable with h | h <;> exact congrArg Roster.table h
      exact fun q hq => show q ∈ (k.userFault self sig writable).table from htable ▸ hq
    | waitpid self wpid options => exact absurd rfl (hw self wpid options)
    | reapZombies => exact absurd rfl hz
    | destroyProcess pid => exact absurd rfl (hd pid)
    | _ => cases hop

/-- A call that collects a child collects none that is some core's current task. -/
def Spares (s : Smp) : Event → Prop
  | .call cpu (.waitpid self wpid _) =>
    self ∈ s.kernel.table → s.getCurrentProcess cpu = some self →
      ∀ c, s.kernel.collected self wpid ≠ some (s.schedCur c)
  | _ => True

instance (s : Smp) (e : Event) : Decidable (s.Spares e) := by
  apply Event.casesOn (motive := fun e => Decidable (s.Spares e)) e
  case call =>
    intro cpu op
    apply Op.casesOn (motive := fun op => Decidable (s.Spares (.call cpu op))) op <;> intros
    case waitpid => exact inferInstanceAs (Decidable (_ → _ → ∀ c, _))
    all_goals exact inferInstanceAs (Decidable True)
  all_goals intros; exact inferInstanceAs (Decidable True)

theorem valid_waitpid_iff (hk : s.kernel.blocks.Owned) (h : s.Valid) (self : Nat)
    (wpid options : BitVec 32) :
    (s.process (.waitpid self wpid options)).Valid ↔
      ∀ c, s.kernel.collected self wpid ≠ some (s.schedCur c) := by
  have htable (q : Nat) : q ∈ (s.process (.waitpid self wpid options)).kernel.table ↔
      q ∈ s.kernel.table ∧ s.kernel.collected self wpid ≠ some q := doWaitpid_table hk.nodup ..
  refine ⟨fun hv c he => ?_, fun hr c => (h c).imp_right fun hc => (htable _).mpr ⟨hc, hr c⟩⟩
  rcases hv c with h0 | hc
  · have hmem : s.schedCur c ∈ s.kernel.table := List.mem_of_find?_eq_some he
    have h0' : s.schedCur c = 0 := h0
    rw [h0'] at hmem
    exact hk.nonnull hmem
  · exact ((htable _).mp hc).2 he

/-- A call keeps the current tasks in the table exactly when it obeys the rule. -/
theorem valid_call_iff (hk : s.kernel.blocks.Owned) (h : s.Valid) (cpu : Fin maxCpus) (op : Op) :
    (s.step (.call cpu op)).Valid ↔ s.Spares (.call cpu op) := by
  simp only [step]
  by_cases hw : ∃ self wpid options, op = .waitpid self wpid options
  · obtain ⟨self, wpid, options, rfl⟩ := hw
    split
    case isTrue hcaller =>
      obtain ⟨hmem, hcur⟩ := hcaller self rfl
      rw [valid_waitpid_iff hk h]
      exact ⟨fun hr _ _ => hr, fun hr => hr hmem hcur⟩
    case isFalse hcaller =>
      refine ⟨fun _ hmem hcur => absurd (fun p hp => ?_) hcaller, fun _ => h⟩
      cases hp
      exact ⟨hmem, hcur⟩
  · have hrule : s.Spares (.call cpu op) := by
      cases op with
      | waitpid self wpid options => exact absurd ⟨self, wpid, options, rfl⟩ hw
      | _ => trivial
    refine ⟨fun _ => hrule, fun _ => ?_⟩
    split
    case isFalse => exact h
    case isTrue hcaller =>
      by_cases hz : op = .reapZombies
      · rw [hz]
        exact valid_reapFrom _ s 0 hk.nodup h
      by_cases hd : ∃ pid, op = .destroyProcess pid
      · obtain ⟨pid, rfl⟩ := hd
        exact valid_destroyProcess pid hk.nodup h
      rw [not_exists] at hd
      refine h.mono (process_schedCur s op hz hd) ?_
      rw [process_kernel]
      refine table_perform hk (fun p hp => (hcaller p hp).1) hz hd ?_
      exact fun self wpid options he => hw ⟨self, wpid, options, he⟩

/-! ### Runs -/

theorem owned_step (e : Event) (hk : s.kernel.blocks.Owned) : (s.step e).kernel.blocks.Owned := by
  cases e with
  | call cpu op =>
    simp only [step]
    split
    case isTrue hcaller =>
      rw [process_kernel]
      exact owned_perform (fun p hp => (hcaller p hp).1) hk
    case isFalse => exact hk
  | tick tick =>
    simp only [step]
    rw [(s.ticked_irqSchedulerTick tick).blocks]
    exact hk
  | apTick cpu busy =>
    simp only [step]
    split
    · exact hk
    rw [(s.ticked_apSchedulerTick cpu busy).blocks]
    exact hk
  | threadOn cpu block stack =>
    simp only [step, (s.placed_same ..).1]
    exact owned_createProcess hk true block stack
  | idle block stack =>
    simp only [step]
    split
    · exact hk
    simp only [(s.placed_same ..).1]
    exact owned_createProcess hk true block stack
  | setWeight => exact hk
  | setBalance on => exact hk

theorem valid_step_iff (e : Event) (hk : s.kernel.blocks.Owned) (h : s.Valid) :
    (s.step e).Valid ↔ s.Spares e := by
  have hthread (block stack : Nat) (turn : Turn) :
      (s.placed (s.kernel.createProcess true block stack).1 block turn).Valid := by
    refine h.mono (s.placed_same ..).2 ?_
    rw [(s.placed_same ..).1]
    have htable : s.kernel.table ⊆ (perform s.kernel (.createProcess true block stack)).table :=
      table_perform hk nofun nofun nofun nofun
    exact htable
  cases e with
  | call => exact valid_call_iff hk h ..
  | tick tick => exact ⟨fun _ => trivial, fun _ => (s.ticked_irqSchedulerTick tick).valid h⟩
  | apTick cpu busy =>
    refine ⟨fun _ => trivial, fun _ => ?_⟩
    simp only [step]
    split
    · exact h
    · exact (s.ticked_apSchedulerTick cpu busy).valid h
  | threadOn cpu block stack => exact ⟨fun _ => trivial, fun _ => hthread block stack _⟩
  | idle block stack =>
    refine ⟨fun _ => trivial, fun _ => ?_⟩
    simp only [step]
    split
    · exact h
    · exact hthread block stack _
  | setWeight => exact ⟨fun _ => trivial, fun _ => h⟩
  | setBalance on => exact ⟨fun _ => trivial, fun _ => h⟩

end Smp

/-- In a run from boot every core's current task stays in the process table, at every
moment, exactly when `do_waitpid` never collects a child that is some core's current task. -/
theorem current_tasks_valid_iff (init cpus : Nat) (events : List Event) :
    (∀ ran rest, events = ran ++ rest → (Smp.after init cpus ran).Valid) ↔
      Admissible Smp.step Smp.Spares (Smp.boot init cpus) events :=
  admissible_iff (P := Smp.Valid) (Q := fun s => s.kernel.blocks.Owned)
    (fun _ e hk => Smp.owned_step e hk) (fun _ e hk h => Smp.valid_step_iff e hk h) _ events
    (Process.owned_boot init) fun _ => .inl rfl

def cpu1 : Fin maxCpus := ⟨1, by decide⟩

def plainTick : Event := .tick ⟨fun _ => false, fun _ => false, false⟩

/-- With balancing on, a process (at 48) is placed on CPU 1 and forks; the child (at 144) runs
on CPU 0 and exits there. -/
def childExits : List Event :=
  [.setBalance true, .call bsp (.load (.loaded 32 0x400000#64 0x500000#64) 0x7FF000#64 208 224),
    .call bsp (.spawn none (.loaded 40 0x400000#64 0x500000#64) 0x7FF000#64 48 64),
    .apTick cpu1 false, .call cpu1 (.fork 48 128 144 160 fun _ => 0), plainTick,
    .call bsp (.exit 144 0)]

/-- CPU 0 has gone on to another task when the parent collects the child. -/
theorem current_tasks_valid_after_tick :
    (Smp.after 16 2 (childExits ++ [plainTick, .call cpu1 (.waitpid 48 0 0)])).Valid := by
  refine (current_tasks_valid_iff 16 2 _).mpr ?_ _ [] (List.append_nil _).symm
  decide +kernel

/-- The parent collects the child at once: CPU 0's current task is a record that was freed. -/
theorem waitpid_leaves_current_dangling :
    (Smp.after 16 2 (childExits ++ [.call cpu1 (.waitpid 48 0 0)])).schedCur bsp = 144 ∧
      144 ∉ (Smp.after 16 2 (childExits ++ [.call cpu1 (.waitpid 48 0 0)])).kernel.table ∧
      (Smp.after 16 2 (childExits ++ [.call cpu1 (.waitpid 48 0 0)])).kernel.heap 144 = false := by
  decide +kernel

end Nyx.Scheduler
