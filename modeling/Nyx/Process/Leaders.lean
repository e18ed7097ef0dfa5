import Nyx.Process.Groups

/-! Leaders whatever images tasks run.

That a thread's leader is in the table and leads itself does not depend on page directories:
it is what `Led` says of a roster with all of them forgotten (`blind`). Then only leaders have
descriptors (`Grouped`): a thread's own table stays empty, because its calls go to its
leader's, and it loses nothing when it becomes the heir. -/
namespace Nyx.Process
open Function Kernel Roster List
namespace Roster
open Nyx.Lib

def blind (r : Roster) : Roster := {r with entry := fun p => {r.entry p with pageDirectory := 0}}

section
variable (r : Roster) (p : Nat)

variable (new : Entry) (calls : List FdCall)

theorem blind_update (q : Nat) : {update r.entry p new q with pageDirectory := 0} =
      update r.blind.entry p {new with pageDirectory := 0} q := by
  rw [update_apply, update_apply]
  split <;> rfl

theorem blind_begin :
    (r.begin p new calls).blind = r.blind.begin p {new with pageDirectory := 0} calls := by
  refine Roster.ext rfl rfl rfl rfl ?_
  funext q
  exact r.blind_update p new q

theorem blind_enter :
    (r.enter p new calls).blind = r.blind.enter p {new with pageDirectory := 0} calls := by
  refine Roster.ext rfl rfl rfl rfl ?_
  funext q
  exact r.blind_update p new q

theorem blind_reimage (dir : Nat) :
    (r.modify p fun e => {e with pageDirectory := dir}).blind = r.blind := by
  refine Roster.ext rfl rfl rfl rfl ?_
  funext q
  refine (r.blind_update p _ q).trans ?_
  rw [update_apply]
  split
  case isTrue he => rw [he]; rfl
  case isFalse => rfl

theorem blind_close : (r.close p).blind = r.blind.close p := by
  refine Roster.ext rfl rfl rfl rfl ?_
  funext q
  exact r.blind_update p _ q

theorem blind_handed (heir q : Nat) :
    {r.handed p heir q with pageDirectory := 0} = r.blind.handed p heir q := by
  simp only [handed]
  split
  · rfl
  split
  · rfl
  split
  case isTrue hin => exact (if_pos hin).symm
  case isFalse hout => exact (if_neg hout).symm

theorem blind_reassign : (r.reassign p).blind = r.blind.reassign p := by
  have hfind : r.blind.table.find? (r.blind.inGroup p) = r.table.find? (r.inGroup p) := rfl
  simp only [reassign, hfind]
  cases r.table.find? (r.inGroup p) with
  | none => rfl
  | some heir =>
    refine Roster.ext rfl rfl rfl rfl ?_
    funext q
    exact r.blind_handed p heir q

end

theorem Newcomer.blind {r : Roster} {new : Entry} {calls : List FdCall}
    (h : r.Newcomer new calls) : r.blind.Newcomer {new with pageDirectory := 0} calls := by
  cases h with
  | fresh ppid dir => exact .fresh (r := r.blind) ppid 0
  | forked hself dir => exact .forked (r := r.blind) hself 0
  | cloned hself => exact .cloned (r := r.blind) hself

variable {may : Roster → Nat → Prop}

theorem blind_step {r r' : Roster} (hs : Step PidLeft may r r') :
    Relation.ReflTransGen (Step PidLeft Alone) r.blind r'.blind := by
  cases hs with
  | spend hp hb hcalls new =>
    rw [blind_begin]
    exact .single (.spend (r := r.blind) hp hb hcalls.blind _)
  | enter hp h0 hb hnew =>
    rw [blind_enter]
    exact .single (.enter (r := r.blind) hp h0 hb hnew.blind)
  | reimage => rw [blind_reimage]
  | close hp =>
    rw [blind_close]
    exact .single (.close hp)
  | @reap p i hi =>
    have he : (((r.close p).reassign p).reap i).blind = ((r.blind.close p).reassign p).reap i := by
      rw [← blind_close, ← blind_reassign]
      rfl
    rw [he]
    exact .single (.reap hi)
  | @free p hp =>
    have he : (((r.close p).remove (r.table.idxOf p)).reassign p).blind =
        ((r.blind.close p).remove (r.table.idxOf p)).reassign p := by
      rw [blind_reassign, ← blind_close]
      rfl
    rw [he]
    exact .single (.free hp)

/-! ### Only leaders have descriptors -/

structure Grouped (r : Roster) : Prop where
  numbered : r.Numbered
  led : r.blind.Led
  quiet : ∀ p ∈ r.table, (r.entry p).tgid ≠ 0 → ∀ i, (r.entry p).ufdInuse i = false

variable {r r' : Roster} {p : Nat}

theorem Numbered.blind (h : r.Numbered) : r.blind.Numbered :=
  h.shrink rfl (fun _ hq => hq) h.once fun _ _ => rfl

theorem Grouped.leader (h : r.Grouped) (hp : p ∈ r.table) :
    r.tgLeader p ∈ r.table ∧ (r.entry (r.tgLeader p)).tgid = 0 := by
  rcases h.numbered.blind.tgLeader h.led hp with ⟨h0, hself⟩ | ⟨_, hlead⟩
  · have he : r.tgLeader p = p := hself
    rw [he]
    exact ⟨hp, h0⟩
  · exact ⟨hlead.mem, hlead.leads⟩

/-- The descriptor table of a leader changes. -/
theorem Grouped.slots (h : r.Grouped) (hlead : (r.entry p).tgid = 0) {g : Entry → Entry}
    (hpid : ∀ e, (g e).pid = e.pid) (htg : ∀ e, (g e).tgid = e.tgid) : (r.modify p g).Grouped := by
  have hpid (q : Nat) := r.entry_modify p q Entry.pid hpid
  have htg (q : Nat) := r.entry_modify p q Entry.tgid htg
  refine ⟨?_, ?_, ?_⟩
  · exact h.numbered.shrink rfl (fun _ hq => hq) h.numbered.once fun q _ => hpid q
  · exact h.led.congr rfl (fun q _ => htg q) (fun q _ => hpid q) fun _ _ => rfl
  · intro q hq htg' i
    rw [htg] at htg'
    have hqp : q ≠ p := fun heq => htg' (heq ▸ hlead)
    rw [show (r.modify p g).entry q = r.entry q from update_of_ne hqp ..]
    exact h.quiet q hq htg' i

/-- A task whose descriptors are closed is replaced by its heir: nobody's table changes. -/
theorem reassign_fds (hp : (r.entry p).pid ≠ 0) (hshut : ∀ i, (r.entry p).ufdInuse i = false)
    (hquiet : ∀ q ∈ r.table, (r.entry q).tgid ≠ 0 → ∀ i, (r.entry q).ufdInuse i = false)
    {q : Nat} (hq : q ≠ p) :
    ((r.reassign p).entry q).ufdInuse = (r.entry q).ufdInuse ∧ ∀ i, (r.entry q).ufdInuse i = true →
        ((r.reassign p).entry q).ufdHandle i = (r.entry q).ufdHandle i := by
  simp only [reassign]
  cases hfind : r.table.find? (r.inGroup p) with
  | none => exact ⟨rfl, fun _ _ => rfl⟩
  | some heir =>
    have hin := find?_some hfind
    simp only [inGroup, Bool.and_eq_true, beq_iff_eq] at hin
    have hnone := hquiet heir (mem_of_find?_eq_some hfind) (by rw [hin.2]; exact hp)
    simp only [handed, if_neg hq]
    split
    case isTrue he =>
      rw [he]
      refine ⟨?_, fun i hi => ?_⟩
      · funext i
        exact (hshut i).trans (hnone i).symm
      · rw [hnone i] at hi
        cases hi
    case isFalse => split <;> exact ⟨rfl, fun _ _ => rfl⟩

theorem Grouped.close (h : r.Grouped) (hp : p ∈ r.table) : (r.close p).Grouped := by
  have hstep : Step PidLeft Alone r (r.close p) := .close hp
  refine ⟨numbered_step h.numbered hstep, ?_, ?_⟩
  · exact (led_steps (blind_step hstep) h.numbered.blind h.led).2
  intro q hq htg i
  rw [close_tgid] at htg
  show (update r.entry p (r.entry p).shut q).ufdInuse i = false
  rw [update_apply]
  split
  · rfl
  · exact h.quiet q hq htg i

theorem close_self (i : Fin procMaxFds) : ((r.close p).entry p).ufdInuse i = false := by
  show (update r.entry p (r.entry p).shut p).ufdInuse i = false
  rw [update_self]
  rfl

/-- Who follows somebody after a reassignment did so before. -/
theorem tgid_of_reassign (hp : (r.entry p).pid ≠ 0) {q : Nat} (hqp : q ≠ p) (hq : q ∈ r.table) (htg : ((r.reassign p).entry q).tgid ≠ 0) :
    (r.entry q).tgid ≠ 0 := by
  simp only [reassign] at htg
  cases hfind : r.table.find? (r.inGroup p) with
  | none => rwa [hfind] at htg
  | some heir =>
    rw [hfind] at htg
    have htg' : (r.handed p heir q).tgid ≠ 0 := htg
    rw [r.handed_tgid p heir hq hqp] at htg'
    split at htg'
    · exact absurd rfl htg'
    split at htg'
    case isTrue hin =>
      simp only [inGroup, Bool.and_eq_true, beq_iff_eq] at hin
      rw [hin.2]
      exact hp
    case isFalse => exact htg'

theorem Grouped.pid_ne (h : r.Grouped) (hp : p ∈ r.table) : (r.entry p).pid ≠ 0 := by
  intro he
  have hpos := h.numbered.positive p hp
  rw [he] at hpos
  exact Nat.lt_irrefl _ hpos

theorem grouped_step (h : r.Grouped) (hs : Step PidLeft may r r') : r'.Grouped := by
  refine ⟨numbered_step h.numbered hs, (led_steps (blind_step hs) h.numbered.blind h.led).2, ?_⟩
  cases hs with
  | @spend p _ calls hp hb _ new =>
    intro q hq
    rw [show (r.begin p new calls).entry q = r.entry q from
      update_of_ne (ne_of_mem_of_not_mem hq hp) ..]
    exact h.quiet q hq
  | @enter p new calls hp h0 hb hnew =>
    intro q hq
    rcases mem_append.mp hq with hq | hq
    · rw [show (r.enter p new calls).entry q = r.entry q from
        update_of_ne (ne_of_mem_of_not_mem hq hp) ..]
      exact h.quiet q hq
    rw [mem_singleton.mp hq, show (r.enter p new calls).entry p = new from
      update_self ..]
    cases hnew with
    | fresh => exact fun _ _ => rfl
    | forked => exact fun htg => absurd rfl htg
    | cloned hself => exact fun _ _ => rfl
  | @reimage self hself _ dir =>
    intro q hq htg i
    let g (e : Entry) : Entry := {e with pageDirectory := dir}
    rw [r.entry_modify self q Entry.tgid (g := g) fun _ => rfl] at htg
    rw [r.entry_modify self q Entry.ufdInuse (g := g) fun _ => rfl]
    exact h.quiet q hq htg i
  | close hp => exact (h.close hp).quiet
  | @reap p i hi =>
    have hp : p ∈ r.table := mem_of_getElem? hi
    have hc := h.close hp
    intro q hq htg j
    have hmem : q ∈ swapRemove r.table i := by
      rw [← r.close_table p, ← (r.close p).reassign_table p]
      exact hq
    obtain ⟨hq', hqp⟩ := (mem_swapRemove h.numbered.once hi).mp hmem
    have htg' := tgid_of_reassign (hc.pid_ne hp) hqp hq' htg
    have hfds := reassign_fds (hc.pid_ne hp) close_self hc.quiet hqp
    exact (congrFun hfds.1 j).trans (hc.quiet q hq' htg' j)
  | @free p hp =>
    have hi : r.table[r.table.idxOf p]? = some p := getElem?_idxOf hp
    have hc := h.close hp
    have hsub (q : Nat) (hq : q ∈ ((r.close p).remove (r.table.idxOf p)).table) :=
      (mem_swapRemove h.numbered.once hi).mp hq
    have hquiet (q : Nat) (hq : q ∈ ((r.close p).remove (r.table.idxOf p)).table) :=
      hc.quiet q (hsub q hq).1
    intro q hq htg j
    rw [reassign_table] at hq
    have hpid : (((r.close p).remove (r.table.idxOf p)).entry p).pid ≠ 0 := hc.pid_ne hp
    have htg' := tgid_of_reassign hpid (hsub q hq).2 hq htg
    have hfds := reassign_fds hpid close_self hquiet (hsub q hq).2
    exact (congrFun hfds.1 j).trans (hquiet q hq htg' j)

theorem grouped_steps (hs : Relation.ReflTransGen (Step PidLeft may) r r') (h : r.Grouped) :
    r'.Grouped := by
  induction hs with
  | refl => exact h
  | tail _ hstep ih => exact grouped_step ih hstep

/-! ### What the descriptors hold -/

/-- The handle of the descriptor `i` of the entry `p`. -/
def slot (r : Roster) (p : Nat) (i : Fin procMaxFds) : Option (BitVec 32) :=
  if p ∈ r.table ∧ (r.entry p).ufdInuse i = true then some ((r.entry p).ufdHandle i) else none

/-- The same task with the same descriptors. -/
theorem slot_congr {q : Nat} (hmem : q ∈ r'.table ↔ q ∈ r.table)
    (hin : q ∈ r.table → (r'.entry q).ufdInuse = (r.entry q).ufdInuse)
    (hh : q ∈ r.table → ∀ i, (r.entry q).ufdInuse i = true →
      (r'.entry q).ufdHandle i = (r.entry q).ufdHandle i) : r'.slot q = r.slot q := by
  funext i
  simp only [slot, hmem]
  by_cases hq : q ∈ r.table
  · rw [hin hq]
    by_cases hi : (r.entry q).ufdInuse i = true
    · rw [if_pos ⟨hq, hi⟩, if_pos ⟨hq, hi⟩, hh hq i hi]
    · rw [if_neg fun h => hi h.2, if_neg fun h => hi h.2]
  · rw [if_neg fun h => hq h.1, if_neg fun h => hq h.1]

theorem slot_outside (hp : p ∉ r.table) : r.slot p = fun _ => none := by
  funext i
  exact if_neg fun h => hp h.1

theorem slot_shut (hp : ∀ i, (r.entry p).ufdInuse i = false) : r.slot p = fun _ => none := by
  funext i
  refine if_neg fun h => ?_
  rw [hp i] at h
  exact Bool.noConfusion h.2

theorem slot_close (p q : Nat) :
    (r.close p).slot q = if q = p then fun _ => none else r.slot q := by
  split
  case isTrue he =>
    rw [he]
    exact slot_shut close_self
  case isFalse hne =>
    have hsame : (r.close p).entry q = r.entry q := update_of_ne hne ..
    exact slot_congr Iff.rfl (fun _ => by rw [hsame]) fun _ _ _ => by rw [hsame]

/-- A task that is freed leaves everybody else's descriptors alone. -/
theorem slot_reap (h : r.Grouped) {i : Nat} (hi : r.table[i]? = some p) (q : Nat) :
    (((r.close p).reassign p).reap i).slot q = (r.close p).slot q := by
  have hp : p ∈ r.table := mem_of_getElem? hi
  have hc := h.close hp
  have hmem (q : Nat) : q ∈ (((r.close p).reassign p).reap i).table ↔ q ∈ r.table ∧ q ≠ p := by
    show q ∈ swapRemove ((r.close p).reassign p).table i ↔ _
    rw [reassign_table]
    exact mem_swapRemove h.numbered.once hi
  rcases eq_or_ne q p with rfl | hqp
  · rw [slot_outside fun hq => ((hmem q).mp hq).2 rfl, slot_shut close_self]
  have hfds := reassign_fds (hc.pid_ne hp) close_self hc.quiet hqp
  exact slot_congr ((hmem q).trans (and_iff_left hqp)) (fun _ => hfds.1) fun _ => hfds.2

theorem slot_free (h : r.Grouped) (hp : p ∈ r.table) (q : Nat) :
    (((r.close p).remove (r.table.idxOf p)).reassign p).slot q = (r.close p).slot q := by
  have hi : r.table[r.table.idxOf p]? = some p := getElem?_idxOf hp
  have hc := h.close hp
  have hmem (q : Nat) : q ∈ (((r.close p).remove (r.table.idxOf p)).reassign p).table ↔
      q ∈ r.table ∧ q ≠ p := by
    rw [reassign_table]
    exact mem_swapRemove h.numbered.once hi
  have hquiet (q : Nat) (hq : q ∈ ((r.close p).remove (r.table.idxOf p)).table) :=
    hc.quiet q ((mem_swapRemove h.numbered.once hi).mp hq).1
  rcases eq_or_ne q p with rfl | hqp
  · rw [slot_outside fun hq => ((hmem q).mp hq).2 rfl, slot_shut close_self]
  have hpid : (((r.close p).remove (r.table.idxOf p)).entry p).pid ≠ 0 := hc.pid_ne hp
  have hfds := reassign_fds hpid close_self hquiet hqp
  exact slot_congr ((hmem q).trans (and_iff_left hqp)) (fun _ => hfds.1) fun _ => hfds.2

theorem slot_begin (hp : p ∉ r.table) (new : Entry) (calls : List FdCall) (q : Nat) :
    (r.begin p new calls).slot q = r.slot q := by
  have hsame (hq : q ∈ r.table) : (r.begin p new calls).entry q = r.entry q :=
    update_of_ne (ne_of_mem_of_not_mem hq hp) ..
  exact slot_congr Iff.rfl (fun hq => by rw [hsame hq]) fun hq _ _ => by rw [hsame hq]

theorem slot_enter (new : Entry) (calls : List FdCall) (q : Nat) : (r.enter p new calls).slot q =
      if q = p then fun i => if new.ufdInuse i = true then some (new.ufdHandle i) else none
      else r.slot q := by
  split
  case isTrue he =>
    rw [he]
    funext i
    have hmem : p ∈ (r.enter p new calls).table := mem_append_right _ (mem_singleton_self p)
    have hself : (r.enter p new calls).entry p = new := update_self ..
    simp only [slot, hmem, hself, true_and]
  case isFalse hne =>
    have hsame : (r.enter p new calls).entry q = r.entry q := update_of_ne hne ..
    refine slot_congr ?_ (fun _ => by rw [hsame]) fun _ _ _ => by rw [hsame]
    show q ∈ r.table ++ [p] ↔ _
    simp [hne]

theorem slot_reimage (self dir q : Nat) :
    (r.modify self fun e => {e with pageDirectory := dir}).slot q = r.slot q := by
  let g (e : Entry) : Entry := {e with pageDirectory := dir}
  exact slot_congr Iff.rfl (fun _ => r.entry_modify self q Entry.ufdInuse (g := g) fun _ => rfl)
    fun _ i _ => congrFun (r.entry_modify self q Entry.ufdHandle (g := g) fun _ => rfl) i

end Roster

namespace Kernel
variable {k k' : Kernel} {p : Nat} {new : Core} {calls : List FdCall}

theorem slot_aborted (h : Aborted k k' calls) : k'.roster.slot = k.roster.slot := by
  rcases roster_aborted h with h | ⟨p, hp, filled, h⟩
  · rw [h]
  rw [h]
  funext q
  exact slot_begin hp filled calls q

theorem slot_born (h : Born k k' p new calls) : k'.roster.slot = update k.roster.slot p fun i =>
      if new.entry.ufdInuse i = true then some (new.entry.ufdHandle i) else none := by
  rw [roster_born h]
  funext q
  rw [slot_enter, update_apply]

/-- A newcomer without descriptors. -/
theorem slot_born_shut (h : Born k k' p new calls) (hnew : ∀ i, new.entry.ufdInuse i = false) :
    k'.roster.slot = k.roster.slot := by
  rw [slot_born h, Function.update_eq_self_iff, slot_outside h.outside]
  funext i
  rw [hnew i]
  rfl

end Kernel

theorem grouped_perform {k : Kernel} {op : Op} (hk : k.blocks.Owned) (hg : k.roster.Grouped)
    (hop : op.releases = false) (hcaller : ∀ p ∈ op.caller, p ∈ k.table)
    (hleft : k.nextPid.toNat < 2 ^ 32) : (perform k op).roster.Grouped := by
  have hchange : Kernel.Changes Roster.PidLeft (fun _ _ => True) k (perform k op) :=
    roster_change k op hk hleft hcaller (fun _ _ _ _ _ _ => trivial) hop
  exact grouped_steps hchange.steps hg

/-- Only `do_fork` gives somebody descriptors. -/
theorem slot_perform {k : Kernel} {op : Op} (hk : k.blocks.Owned) (hop : op.releases = false)
    (hfork : ∀ self dir block stack bufs, op ≠ .fork self dir block stack bufs) :
    (perform k op).roster.slot = k.roster.slot := by
  cases op with
  | fork self dir block stack bufs => exact absurd rfl (hfork self dir block stack bufs)
  | exit self code => cases hop
  | waitpid self wpid options => cases hop
  | reapZombies => cases hop
  | destroyProcess pid => cases hop
  | userFault self sig writable => cases hop
  | createProcess entry block stack =>
    rcases createProcess_outcome hk entry block stack with h | ⟨p, h⟩
    · exact slot_aborted h
    · exact slot_born_shut h fun _ => rfl
  | load image rsp block stack =>
    rcases elfLoadArgs_outcome hk image rsp block stack with ⟨_, h⟩ | ⟨dir, h⟩
    · exact slot_aborted h
    · exact slot_born_shut h fun _ => rfl
  | spawn parent image rsp block stack =>
    rcases spawnUserPathArgs_outcome hk parent image rsp block stack with
      h | ⟨p, dir, ppid, h⟩
    · exact slot_aborted h
    · exact slot_born_shut h fun _ => rfl
  | clone self fn stack arg flags block kstack =>
    rcases doClone_outcome hk self fn stack arg flags block kstack with h | ⟨p, h⟩
    · exact slot_aborted h
    · exact slot_born_shut h fun _ => rfl
  | execve self image argc sp =>
    rw [perform]
    rcases k.roster_doExecve self image argc sp with h | ⟨_, dir, h⟩
    · rw [h]
    rw [h]
    funext q
    exact slot_reimage self dir q
  | kwait self pid => rw [perform, k.roster_kwait self pid]
  | kill pid sig => rw [perform, k.roster_doKill pid sig]
  | dispatch self writable => rw [perform, k.roster_signalDispatch self writable]
  | mmap | mprotect | munmap | signal | resumed | sigreturn | sigprocmask | trap =>
    exact congrArg Roster.slot (roster_of_cores (k.cores_quiet rfl))

theorem grouped_boot (init : Nat) : (boot init).roster.Grouped := by
  have hchange : Kernel.Changes Roster.PidLeft Roster.Alone empty (boot init) :=
    change_boot init pidLeft_empty
  refine grouped_steps hchange.steps ⟨numbered_empty, ?_, ?_⟩
  · exact fun _ hp => absurd hp not_mem_nil
  · exact fun _ hp => absurd hp not_mem_nil

theorem slot_boot (init : Nat) : (boot init).roster.slot = fun _ _ => none := by
  have hchange : Roster.Change Roster.PidLeft Roster.Alone empty.roster
      (boot init).roster := change_boot init pidLeft_empty
  have hnone (q : Nat) : empty.roster.slot q = fun _ => none := slot_outside not_mem_nil
  funext q
  generalize (boot init).roster = r at hchange ⊢
  cases hchange with
  | same => exact hnone q
  | spend hp _ _ new => exact (slot_begin hp new _ q).trans (hnone q)
  | reimage hself _ dir => exact absurd hself not_mem_nil
  | enter hp _ _ hnew =>
    rw [slot_enter]
    cases hnew with
    | fresh ppid dir =>
      split
      · rfl
      · exact hnone q
    | forked hself dir => exact absurd hself not_mem_nil
    | cloned hself => exact absurd hself not_mem_nil

end Nyx.Process
