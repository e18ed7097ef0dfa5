import Nyx.Process.Roster

/-! Thread groups.

A thread names its leader by pid, and the leader is looked up in the table each time. Pids
are `next_pid` cut to 32 bits, so they identify tasks as long as fewer than 2^32 were
created (`Numbered`). Then every thread's leader is in the table, leads itself, and has the
thread's page directory (`Led`), unless a member of a group replaces its image: `do_execve`
gives the new page directory to the caller alone. -/
namespace Nyx.Process
open Nyx.Lib Function Kernel List

namespace Roster

/-- Every entry has a pid of its own. -/
structure Numbered (r : Roster) : Prop where
  nonnull : 0 ∉ r.table
  once : r.table.Nodup
  started : 0 < r.nextPid.toNat
  bound : r.nextPid.toNat ≤ 2 ^ 32
  positive : ∀ p ∈ r.table, 0 < (r.entry p).pid.toNat
  below : ∀ p ∈ r.table, (r.entry p).pid.toNat < r.nextPid.toNat
  distinct : ∀ p ∈ r.table, ∀ q ∈ r.table, (r.entry p).pid = (r.entry q).pid → p = q

/-- Another pid can be handed out that no task has had. -/
def PidLeft (r : Roster) : Prop := r.nextPid.toNat < 2 ^ 32

section
variable {r r' : Roster} {p : Nat}

theorem Numbered.shrink (h : r.Numbered) (hnext : r'.nextPid = r.nextPid)
    (hsub : ∀ q ∈ r'.table, q ∈ r.table) (hnodup : r'.table.Nodup)
    (hpid : ∀ q ∈ r'.table, (r'.entry q).pid = (r.entry q).pid) : r'.Numbered where
  nonnull h0 := h.nonnull (hsub 0 h0)
  once := hnodup
  started := hnext ▸ h.started
  bound := hnext ▸ h.bound
  positive q hq := by
    rw [hpid q hq]
    exact h.positive q (hsub q hq)
  below q hq := by
    rw [hpid q hq, hnext]
    exact h.below q (hsub q hq)
  distinct q hq q' hq' he := by
    rw [hpid q hq, hpid q' hq'] at he
    exact h.distinct q (hsub q hq) q' (hsub q' hq') he

theorem Numbered.findProcess (h : r.Numbered) (hp : p ∈ r.table) :
    r.findProcess (r.entry p).pid = some p := by
  cases hf : r.findProcess (r.entry p).pid with
  | none =>
    have hnone := find?_eq_none.mp hf p hp
    have hp0 : p ≠ 0 := fun he => h.nonnull (he ▸ hp)
    simp [hp0] at hnone
  | some q =>
    have hq := find?_some hf
    simp only [Bool.and_eq_true, beq_iff_eq] at hq
    rw [h.distinct q (mem_of_find?_eq_some hf) p hp hq.2]

theorem PidLeft.next (h : r.PidLeft) : (r.nextPid + 1).toNat = r.nextPid.toNat + 1 := by
  have hlt : r.nextPid.toNat < 2 ^ 32 := h
  rw [BitVec.toNat_add]
  exact Nat.mod_eq_of_lt (by rw [show (1 : BitVec 64).toNat = 1 from rfl]; omega)

theorem PidLeft.pid (h : r.PidLeft) : (r.nextPid.setWidth 32).toNat = r.nextPid.toNat := by
  rw [BitVec.toNat_setWidth]
  exact Nat.mod_eq_of_lt h

/-- A record outside the table is filled in and a pid is spent. -/
theorem Numbered.begin (h : r.Numbered) (hb : r.PidLeft) (hp : p ∉ r.table) (new : Entry)
    (calls : List FdCall) : (r.begin p new calls).Numbered := by
  have hsame (q : Nat) (hq : q ∈ r.table) : (r.begin p new calls).entry q = r.entry q :=
    update_of_ne (ne_of_mem_of_not_mem hq hp) ..
  have hlt : r.nextPid.toNat < 2 ^ 32 := hb
  exact
    { nonnull := h.nonnull
      once := h.once
      started := by
        show 0 < (r.nextPid + 1).toNat
        rw [hb.next]
        omega
      bound := by
        show (r.nextPid + 1).toNat ≤ 2 ^ 32
        rw [hb.next]
        omega
      positive := fun q hq => by
        rw [hsame q hq]
        exact h.positive q hq
      below := fun q hq => by
        show ((r.begin p new calls).entry q).pid.toNat < (r.nextPid + 1).toNat
        rw [hsame q hq, hb.next]
        have := h.below q hq
        omega
      distinct := fun q hq q' hq' => by
        rw [hsame q hq, hsame q' hq']
        exact h.distinct q hq q' hq' }

/-- The new task has a pid that none of the others has. -/
theorem Numbered.enter (h : r.Numbered) (hb : r.PidLeft) (hp : p ∉ r.table) (h0 : p ≠ 0)
    {new : Entry} (hpid : new.pid = r.nextPid.setWidth 32) (calls : List FdCall) :
    (r.enter p new calls).Numbered := by
  have hbegun := h.begin hb hp new calls
  have hself : (r.enter p new calls).entry p = new := update_self ..
  have hother (q : Nat) (hq : q ∈ r.table) : (r.enter p new calls).entry q = r.entry q :=
    update_of_ne (ne_of_mem_of_not_mem hq hp) ..
  have hnew : new.pid.toNat = r.nextPid.toNat := by rw [hpid, hb.pid]
  have hne (q : Nat) (hq : q ∈ r.table) : (r.entry q).pid ≠ new.pid := by
    intro he
    have hlt := h.below q hq
    rw [he, hnew] at hlt
    exact Nat.lt_irrefl _ hlt
  have hmem {q : Nat} (hq : q ∈ (r.enter p new calls).table) : q ∈ r.table ∨ q = p := by
    rcases mem_append.mp hq with hq | hq
    · exact .inl hq
    · exact .inr (mem_singleton.mp hq)
  exact
    { nonnull := fun hz => (hmem hz).elim h.nonnull fun he => h0 he.symm
      once := nodup_append.mpr ⟨h.once, nodup_singleton p, fun q hq q' hq' he =>
        hp (mem_singleton.mp hq' ▸ he ▸ hq)⟩
      started := hbegun.started
      bound := hbegun.bound
      positive := fun q hq => by
        rcases hmem hq with hq | rfl
        · rw [hother q hq]
          exact h.positive q hq
        rw [hself, hnew]
        exact h.started
      below := fun q hq => by
        show _ < (r.nextPid + 1).toNat
        rw [hb.next]
        rcases hmem hq with hq | rfl
        · rw [hother q hq]
          exact Nat.lt_succ_of_lt (h.below q hq)
        rw [hself, hnew]
        exact Nat.lt_succ_self _
      distinct := fun q hq q' hq' he => by
        rcases hmem hq with hold | hnewq
        · rcases hmem hq' with hold' | hnewq'
          · rw [hother q hold, hother q' hold'] at he
            exact h.distinct q hold q' hold' he
          · rw [hother q hold, hnewq', hself] at he
            exact absurd he (hne q hold)
        · rcases hmem hq' with hold' | hnewq'
          · rw [hother q' hold', hnewq, hself] at he
            exact absurd he.symm (hne q' hold')
          · exact hnewq.trans hnewq'.symm }

end

/-! ### Reassigning and removing -/

section
variable (r : Roster) (p : Nat)

@[simp] theorem close_table : (r.close p).table = r.table := rfl

variable (q : Nat)

/-- What a change of one entry does not touch is the same in all. -/
theorem entry_modify {α : Type} (φ : Entry → α) {g : Entry → Entry} (hg : ∀ e, φ (g e) = φ e) :
    φ ((r.modify p g).entry q) = φ (r.entry q) := by
  show φ (update r.entry p _ q) = _
  rw [update_apply]
  split
  case isTrue he => rw [hg, he]
  case isFalse => rfl

/-- Closing descriptors leaves the rest of every entry alone. -/
theorem close_shut : ((r.close p).entry q).shut = (r.entry q).shut := by
  show (update r.entry p (r.entry p).shut q).shut = _
  rcases eq_or_ne q p with rfl | hq
  · rw [update_self]
    rfl
  · rw [update_of_ne hq]

@[simp] theorem close_pid : ((r.close p).entry q).pid = (r.entry q).pid :=
  (congrArg Entry.pid (r.close_shut p q) :)

@[simp] theorem close_tgid : ((r.close p).entry q).tgid = (r.entry q).tgid :=
  (congrArg Entry.tgid (r.close_shut p q) :)

@[simp] theorem close_pageDirectory :
    ((r.close p).entry q).pageDirectory = (r.entry q).pageDirectory :=
  (congrArg Entry.pageDirectory (r.close_shut p q) :)

theorem close_inGroup : (r.close p).inGroup p q = r.inGroup p q := by
  simp only [inGroup, close_pid, close_tgid]

@[simp] theorem handed_pid (heir q : Nat) : (r.handed p heir q).pid = (r.entry q).pid := by
  simp only [handed]
  split
  case isTrue he =>
    rw [he]
    rfl
  case isFalse =>
    split
    case isTrue he =>
      rw [he]
      rfl
    case isFalse => split <;> rfl

@[simp] theorem handed_pageDirectory (heir q : Nat) :
    (r.handed p heir q).pageDirectory = (r.entry q).pageDirectory := by
  simp only [handed]
  split
  case isTrue he =>
    rw [he]
    rfl
  case isFalse =>
    split
    case isTrue he =>
      rw [he]
      rfl
    case isFalse => split <;> rfl

/-- What the members of a group are told. -/
theorem handed_tgid (heir : Nat) {q : Nat} (hq : q ∈ r.table) (hp : q ≠ p) :
    (r.handed p heir q).tgid =
      if q = heir then 0 else if r.inGroup p q then (r.entry heir).pid else (r.entry q).tgid := by
  simp only [handed, if_neg hp]
  split
  · rfl
  cases r.inGroup p q with
  | true => rw [if_pos ⟨hq, rfl⟩, if_pos rfl]
  | false => rw [if_neg (fun h => Bool.noConfusion h.2), if_neg Bool.false_ne_true]

theorem reassign_table : (r.reassign p).table = r.table := by
  simp only [reassign]
  split <;> rfl

theorem reassign_nextPid : (r.reassign p).nextPid = r.nextPid := by
  simp only [reassign]
  split <;> rfl

theorem reassign_pid : ((r.reassign p).entry q).pid = (r.entry q).pid := by
  simp only [reassign]
  split
  · rfl
  · exact r.handed_pid p _ q

end

theorem numbered_step {may : Roster → Nat → Prop} {r r' : Roster} (h : r.Numbered)
    (hs : Step PidLeft may r r') : r'.Numbered := by
  cases hs with
  | spend hp hb _ new => exact h.begin hb hp new _
  | enter hp h0 hb hnew =>
    refine h.enter hb hp h0 ?_ _
    cases hnew <;> rfl
  | reimage hself _ dir =>
    exact h.shrink rfl (fun _ hq => hq) h.once fun q _ => r.entry_modify _ q Entry.pid fun _ => rfl
  | close hp => exact h.shrink rfl (fun _ hq => hq) h.once fun q _ => r.close_pid _ q
  | @reap p i hi =>
    have htable : (((r.close p).reassign p).reap i).table = swapRemove r.table i := by
      show swapRemove ((r.close p).reassign p).table i = _
      rw [reassign_table, close_table]
    refine h.shrink ?_ (fun q hq => ?_) ?_ fun q _ => ?_
    · exact (r.close p).reassign_nextPid p
    · rw [htable] at hq
      exact ((mem_swapRemove h.once hi).mp hq).1
    · rw [htable]
      exact nodup_swapRemove h.once hi
    · exact ((r.close p).reassign_pid p q).trans (r.close_pid p q)
  | @free p hp =>
    have hi : r.table[r.table.idxOf p]? = some p := getElem?_idxOf hp
    have htable := ((r.close p).remove (r.table.idxOf p)).reassign_table p
    refine h.shrink ?_ (fun q hq => ?_) ?_ fun q _ => ?_
    · exact reassign_nextPid _ p
    · rw [htable] at hq
      exact ((mem_swapRemove h.once hi).mp hq).1
    · rw [htable]
      exact nodup_swapRemove h.once hi
    · exact (reassign_pid _ p q).trans (r.close_pid p q)

/-! ### Leaders -/

/-- `l` leads the task `p`. -/
structure Leads (r : Roster) (l p : Nat) : Prop where
  mem : l ∈ r.table
  pid : (r.entry l).pid = (r.entry p).tgid
  leads : (r.entry l).tgid = 0
  dir : (r.entry l).pageDirectory = (r.entry p).pageDirectory

def Led (r : Roster) : Prop := ∀ p ∈ r.table, (r.entry p).tgid = 0 ∨ ∃ l, r.Leads l p

def Alone (r : Roster) (p : Nat) : Prop :=
  ∀ q ∈ r.table, q ≠ p → (r.entry q).pageDirectory ≠ (r.entry p).pageDirectory

section
variable {r r' : Roster} {p : Nat}

theorem Leads.congr {l : Nat} (h : r.Leads l p) (hl : l ∈ r'.table)
    (hpid : (r'.entry l).pid = (r.entry l).pid) (htg : (r'.entry l).tgid = (r.entry l).tgid)
    (hdir : (r'.entry l).pageDirectory = (r.entry l).pageDirectory)
    (hptg : (r'.entry p).tgid = (r.entry p).tgid)
    (hpdir : (r'.entry p).pageDirectory = (r.entry p).pageDirectory) : r'.Leads l p :=
  ⟨hl, hpid.trans (h.pid.trans hptg.symm), htg.trans h.leads, hdir.trans (h.dir.trans hpdir.symm)⟩

/-- The task `tg_leader` finds leads the group. -/
theorem Numbered.tgLeader (h : r.Numbered) (hl : r.Led) (hp : p ∈ r.table) :
    (r.entry p).tgid = 0 ∧ r.tgLeader p = p ∨ (r.entry p).tgid ≠ 0 ∧ r.Leads (r.tgLeader p) p := by
  by_cases h0 : (r.entry p).tgid = 0
  · exact .inl ⟨h0, if_pos (.inr (.inl h0))⟩
  obtain ⟨l, hlead⟩ := (hl p hp).resolve_left h0
  have hself : (r.entry p).tgid ≠ (r.entry p).pid := by
    intro he
    have hlp := h.distinct l hlead.mem p hp (hlead.pid.trans he)
    rw [hlp] at hlead
    exact h0 hlead.leads
  have hne : p ≠ 0 := fun he => h.nonnull (he ▸ hp)
  have hfind : r.findProcess (r.entry p).tgid = some l := hlead.pid ▸ h.findProcess hlead.mem
  refine .inr ⟨h0, ?_⟩
  rw [Roster.tgLeader, if_neg (not_or.mpr ⟨hne, not_or.mpr ⟨h0, hself⟩⟩), hfind]
  exact hlead

theorem Led.congr (h : r.Led) (htable : r'.table = r.table)
    (htg : ∀ q ∈ r.table, (r'.entry q).tgid = (r.entry q).tgid)
    (hpid : ∀ q ∈ r.table, (r'.entry q).pid = (r.entry q).pid)
    (hdir : ∀ q ∈ r.table, (r'.entry q).pageDirectory = (r.entry q).pageDirectory) : r'.Led := by
  intro q hq
  rw [htable] at hq
  rw [htg q hq]
  refine (h q hq).imp id ?_
  exact fun ⟨l, hl⟩ => ⟨l, hl.congr (htable ▸ hl.mem) (hpid l hl.mem) (htg l hl.mem)
    (hdir l hl.mem) (htg q hq) (hdir q hq)⟩

theorem Led.enter (hn : r.Numbered) (h : r.Led) (hp : p ∉ r.table) {new : Entry}
    {calls : List FdCall} (hnew : r.Newcomer new calls) : (r.enter p new calls).Led := by
  have hself : (r.enter p new calls).entry p = new := update_self ..
  have hother (q : Nat) (hq : q ∈ r.table) : (r.enter p new calls).entry q = r.entry q :=
    update_of_ne (ne_of_mem_of_not_mem hq hp) ..
  have hkept {l : Nat} (hl : l ∈ r.table) : l ∈ (r.enter p new calls).table := mem_append_left _ hl
  intro q hq
  rcases mem_append.mp hq with hq | hq
  · rw [hother q hq]
    refine (h q hq).imp id ?_
    rintro ⟨l, hl⟩
    have hsame := hother l hl.mem
    exact ⟨l, hl.congr (hkept hl.mem) (by rw [hsame]) (by rw [hsame]) (by rw [hsame])
      (by rw [hother q hq]) (by rw [hother q hq])⟩
  · rw [mem_singleton.mp hq, hself]
    cases hnew with
    | fresh => exact .inl rfl
    | forked => exact .inl rfl
    | @cloned self hmem =>
      -- The leader of the caller leads the new thread as well.
      have hsame (l : Nat) (hl : l ∈ r.table) := hother l hl
      refine .inr ?_
      rcases hn.tgLeader h hmem with ⟨h0, hlead⟩ | ⟨_, hlead⟩
      · refine ⟨self, hkept hmem, ?_, ?_, ?_⟩
        · rw [hsame self hmem, hself]
          rw [hlead]
        · rw [hsame self hmem]
          exact h0
        · rw [hsame self hmem, hself]
          rfl
      · refine ⟨r.tgLeader self, hkept hlead.mem, ?_, ?_, ?_⟩
        · rw [hsame _ hlead.mem, hself]
        · rw [hsame _ hlead.mem]
          exact hlead.leads
        · rw [hsame _ hlead.mem, hself]
          exact hlead.dir

/-- A task that has its address space to itself can change it. -/
theorem Led.reimage (h : r.Led) (hself : p ∈ r.table) (ha : r.Alone p) (dir : Nat) :
    (r.modify p fun e => {e with pageDirectory := dir}).Led := by
  have hown : (r.entry p).tgid = 0 := by
    rcases h p hself with h0 | ⟨l, hl⟩
    · exact h0
    rcases eq_or_ne l p with rfl | hne
    · exact hl.leads
    · exact absurd hl.dir (ha l hl.mem hne)
  have hother (q : Nat) (hq : q ≠ p) :
      (r.modify p fun e => {e with pageDirectory := dir}).entry q = r.entry q := update_of_ne hq ..
  intro q hq
  rcases eq_or_ne q p with rfl | hne
  · refine .inl ?_
    show (update r.entry q _ q).tgid = 0
    rw [update_self]
    exact hown
  rw [hother q hne]
  refine (h q hq).imp id fun ⟨l, hl⟩ => ⟨l, ?_⟩
  have hlp : l ≠ p := fun he => ha q hq hne (he ▸ hl.dir.symm)
  have hsame := hother l hlp
  exact hl.congr hl.mem (by rw [hsame]) (by rw [hsame]) (by rw [hsame])
    (by rw [hother q hne]) (by rw [hother q hne])

/-- A freed task's group follows its heir. `T` is the table without the task; the heir is
found in the table with or without it. -/
theorem Led.retire (hn : r.Numbered) (h : r.Led) (hp : p ∈ r.table)
    (htable : ∀ q, q ∈ r'.table ↔ q ∈ r.table ∧ q ≠ p)
    (hentry : (∀ q ∈ r.table, r.inGroup p q = false) ∧ (∀ q, r'.entry q = r.entry q) ∨
      ∃ heir ∈ r.table, r.inGroup p heir = true ∧ ∀ q ∈ r.table, q ≠ p →
        (r'.entry q).pid = (r.entry q).pid ∧
        (r'.entry q).pageDirectory = (r.entry q).pageDirectory ∧
        (r'.entry q).tgid = if q = heir then 0 else if r.inGroup p q then (r.entry heir).pid
          else (r.entry q).tgid) : r'.Led := by
  have hgroup {q : Nat} (hq : q ∈ r.table) (hqp : q ≠ p) :
      r.inGroup p q = true ↔ (r.entry q).tgid = (r.entry p).pid := by
    have hq0 : q ≠ 0 := fun he => hn.nonnull (he ▸ hq)
    simp [inGroup, hq0, hqp]
  have hp0 : (r.entry p).pid ≠ 0 := by
    intro he
    have hpos := hn.positive p hp
    rw [he] at hpos
    exact Nat.lt_irrefl _ hpos
  intro q hq
  obtain ⟨hqr, hqp⟩ := (htable q).mp hq
  rcases hentry with ⟨hnone, hsame⟩ | ⟨heir, hheir, hin, hnew⟩
  · rw [hsame q]
    refine (h q hqr).imp id fun ⟨l, hl⟩ => ⟨l, ?_⟩
    have hlp : l ≠ p := by
      intro he
      have hmember := (hgroup hqr hqp).mpr (he ▸ hl.pid.symm)
      rw [hnone q hqr] at hmember
      exact Bool.noConfusion hmember
    exact hl.congr ((htable l).mpr ⟨hl.mem, hlp⟩) (by rw [hsame]) (by rw [hsame]) (by rw [hsame])
      (by rw [hsame]) (by rw [hsame])
  · -- The group is led by the freed task itself, so the heir has its page directory.
    have hheirp : heir ≠ p := by
      simp only [inGroup, Bool.and_eq_true, bne_iff_ne] at hin
      exact hin.1.2
    have hled {m : Nat} (hm : m ∈ r.table) (htg : (r.entry m).tgid = (r.entry p).pid) :
        r.Leads p m := by
      obtain ⟨l, hl⟩ := (h m hm).resolve_left (fun h0 => hp0 (htg.symm.trans h0))
      rwa [hn.distinct l hl.mem p hp (hl.pid.trans htg)] at hl
    have hheirtg := (hgroup hheir hheirp).mp hin
    obtain ⟨hpid', hdir', htg'⟩ := hnew heir hheir hheirp
    rw [if_pos rfl] at htg'
    obtain ⟨hpidq, hdirq, htgq⟩ := hnew q hqr hqp
    rcases eq_or_ne q heir with rfl | hqh
    · exact .inl htg'
    rw [if_neg hqh] at htgq
    cases hmember : r.inGroup p q with
    | true =>
      rw [hmember, if_pos rfl] at htgq
      have hq' := hled hqr ((hgroup hqr hqp).mp hmember)
      refine .inr ⟨heir, (htable heir).mpr ⟨hheir, hheirp⟩, hpid'.trans htgq.symm, htg', ?_⟩
      rw [hdir', hdirq, ← (hled hheir hheirtg).dir, hq'.dir]
    | false =>
      rw [hmember, if_neg Bool.false_ne_true] at htgq
      rw [htgq]
      refine (h q hqr).imp id fun ⟨l, hl⟩ => ⟨l, ?_⟩
      have hlp : l ≠ p := by
        intro he
        have hyes := (hgroup hqr hqp).mpr (he ▸ hl.pid.symm)
        rw [hmember] at hyes
        exact Bool.noConfusion hyes
      have hlh : l ≠ heir := by
        intro he
        rw [← he, hl.leads] at hheirtg
        exact hp0 hheirtg.symm
      obtain ⟨hpidl, hdirl, htgl⟩ := hnew l hl.mem hlp
      have hlout : r.inGroup p l ≠ true := by
        intro hyes
        have := (hgroup hl.mem hlp).mp hyes
        rw [hl.leads] at this
        exact hp0 this.symm
      rw [if_neg hlh, if_neg hlout] at htgl
      exact hl.congr ((htable l).mpr ⟨hl.mem, hlp⟩) hpidl htgl hdirl htgq hdirq

/-- What `tg_reassign_leader` does, whether or not the freed task is still in the table
`r₂.table` it searches. -/
theorem Led.retire_reassign (r₂ : Roster) (hn : r.Numbered) (h : r.Led) (hp : p ∈ r.table)
    (hsub : ∀ q ∈ r₂.table, q ∈ r.table) (hsup : ∀ q ∈ r.table, q ≠ p → q ∈ r₂.table)
    (hsame : r₂.entry = r.entry) (htable : ∀ q, q ∈ r'.table ↔ q ∈ r.table ∧ q ≠ p)
    (hentry : r'.entry = (r₂.reassign p).entry) : r'.Led := by
  have hgroup : r₂.inGroup p = r.inGroup p := by
    funext q
    rw [inGroup, inGroup, hsame]
  refine h.retire hn hp htable ?_
  rw [hentry]
  simp only [reassign]
  cases hfind : r₂.table.find? (r₂.inGroup p) with
  | none =>
    refine .inl ⟨fun q hq => ?_, fun q => by rw [hsame]⟩
    rcases eq_or_ne q p with rfl | hqp
    · simp [inGroup]
    have hno := find?_eq_none.mp hfind q (hsup q hq hqp)
    rw [hgroup] at hno
    exact Bool.eq_false_iff.mpr hno
  | some heir =>
    have hheir := hsub heir (mem_of_find?_eq_some hfind)
    have hin := find?_some hfind
    rw [hgroup] at hin
    refine .inr ⟨heir, hheir, hin, fun q hq hqp => ?_⟩
    have htg := r₂.handed_tgid p heir (hsup q hq hqp) hqp
    rw [hgroup, hsame] at htg
    refine ⟨?_, ?_, htg⟩
    · exact (r₂.handed_pid p heir q).trans (by rw [hsame])
    · exact (r₂.handed_pageDirectory p heir q).trans (by rw [hsame])

end

variable {r r' : Roster}

theorem led_step (hn : r.Numbered) (h : r.Led) (hs : Step PidLeft Alone r r') : r'.Led := by
  have hclosed (p : Nat) : (r.close p).Led := h.congr rfl (fun q _ => r.close_tgid p q)
    (fun q _ => r.close_pid p q) fun q _ => r.close_pageDirectory p q
  have hnum {p : Nat} (hp : p ∈ r.table) : (r.close p).Numbered := by
    have hclose : Step PidLeft Alone r (r.close p) := .close hp
    exact numbered_step hn hclose
  cases hs with
  | @spend p _ calls hp hb _ new =>
    have hother (q : Nat) (hq : q ∈ r.table) : (r.begin p new calls).entry q = r.entry q :=
      update_of_ne (ne_of_mem_of_not_mem hq hp) ..
    exact h.congr rfl (fun q hq => by rw [hother q hq]) (fun q hq => by rw [hother q hq])
      fun q hq => by rw [hother q hq]
  | enter hp h0 hb hnew => exact h.enter hn hp hnew
  | reimage hself hm dir => exact h.reimage hself hm dir
  | close hp => exact hclosed _
  | @reap p i hi =>
    have hp : p ∈ r.table := mem_of_getElem? hi
    refine (hclosed p).retire_reassign _ (hnum hp) hp (fun _ hq => hq) (fun _ hq _ => hq) rfl ?_ rfl
    intro q
    show q ∈ swapRemove ((r.close p).reassign p).table i ↔ _
    rw [reassign_table]
    exact mem_swapRemove hn.once hi
  | @free p hp =>
    have hi : r.table[r.table.idxOf p]? = some p := getElem?_idxOf hp
    have hmem (q : Nat) := mem_swapRemove (y := q) hn.once hi
    refine (hclosed p).retire_reassign ((r.close p).remove (r.table.idxOf p)) (hnum hp) hp
      (fun q hq => ((hmem q).mp hq).1) (fun q hq hqp => (hmem q).mpr ⟨hq, hqp⟩) rfl ?_ rfl
    intro q
    rw [reassign_table]
    exact hmem q

theorem numbered_steps {may : Roster → Nat → Prop}
    (hs : Relation.ReflTransGen (Step PidLeft may) r r') (h : r.Numbered) : r'.Numbered := by
  induction hs with
  | refl => exact h
  | tail _ hstep ih => exact numbered_step ih hstep

theorem led_steps (hs : Relation.ReflTransGen (Step PidLeft Alone) r r') (hn : r.Numbered)
    (h : r.Led) : r'.Numbered ∧ r'.Led := by
  induction hs with
  | refl => exact ⟨hn, h⟩
  | tail _ hstep ih => exact ⟨numbered_step ih.1 hstep, led_step ih.1 ih.2 hstep⟩

end Roster

/-! ### Runs -/

/-- Fewer than 2^32 tasks were created so far, and a task whose `execve` succeeds has its
address space to itself. -/
def Undivided (k : Kernel) (op : Op) : Prop :=
  k.nextPid.toNat < 2 ^ 32 ∧
    match op with
    | .execve self image argc sp => (k.doExecve self image argc sp).2 = 0#32 →
      k.addrSpaceShared (k.procs self).pageDirectory self = false
    | _ => True

instance (k : Kernel) (op : Op) : Decidable (Undivided k op) := by
  cases op <;> exact inferInstanceAs (Decidable (_ ∧ _))

theorem alone_of_execve {k : Kernel} (h0 : 0 ∉ k.table) {self : Nat} {load : Kernel.Load}
    {argc sp : BitVec 64} (hok : (k.doExecve self load argc sp).2 = 0#32)
    (hs : k.addrSpaceShared (k.procs self).pageDirectory self = false) : k.roster.Alone self := by
  have hdir : (k.procs self).pageDirectory ≠ 0 := by
    intro he
    rw [doExecve, if_pos he] at hok
    have hfailed : failed ≠ 0#32 := by decide
    exact hfailed hok
  intro q hq hne hsame
  simp only [addrSpaceShared, Bool.and_eq_false_iff, bne_eq_false_iff_eq] at hs
  have hany := hs.resolve_left hdir
  rw [any_eq_false] at hany
  have hq0 : q ≠ 0 := fun he => h0 (he ▸ hq)
  refine hany q hq ?_
  simp only [bne_iff_ne, ne_eq, hq0, not_false_eq_true, hne, Bool.and_eq_true, beq_iff_eq, and_self,
    true_and]
  exact hsame

theorem groups_step (k : Kernel) (op : Op)
    (h : k.blocks.Owned ∧ k.roster.Numbered ∧ k.roster.Led) (hrule : Undivided k op) :
    (step k op).blocks.Owned ∧ (step k op).roster.Numbered ∧ (step k op).roster.Led := by
  refine ⟨owned_step k op h.1, Roster.led_steps (roster_step k op h.1 hrule.1 ?_) h.2.1 h.2.2⟩
  intro self image argc sp hop hok
  rw [hop] at hrule
  exact alone_of_execve h.2.1.nonnull hok (hrule.2 hok)

theorem pidLeft_empty : Roster.PidLeft empty.roster := by
  show (1 : BitVec 64).toNat < 2 ^ 32
  decide

theorem numbered_empty : empty.roster.Numbered where
  nonnull := not_mem_nil
  once := nodup_nil
  started := by decide
  bound := by decide
  positive := fun _ hp => absurd hp not_mem_nil
  below := fun _ hp => absurd hp not_mem_nil
  distinct := fun _ hp => absurd hp not_mem_nil

theorem groups_boot (init : Nat) : (boot init).roster.Numbered ∧ (boot init).roster.Led :=
  Roster.led_steps (change_boot init pidLeft_empty).steps numbered_empty
    fun _ hp => absurd hp not_mem_nil

/-- Over every run in which tasks of a shared address space do not replace their image, the
task that answers for a process has that process's page directory. -/
theorem thread_groups_coherent (init : Nat) (ops : List Op)
    (h : Admissible step Undivided (boot init) ops) (p : Nat)
    (hp : p ∈ (after init ops).table) :
    ((after init ops).procs ((after init ops).tgLeader p)).pageDirectory =
      ((after init ops).procs p).pageDirectory := by
  have hinv := run_invariant groups_step (boot init) ops ⟨owned_boot init, groups_boot init⟩ h
  rcases hinv.2.1.tgLeader hinv.2.2 hp with ⟨_, hself⟩ | ⟨_, hlead⟩
  · exact congrArg (fun q => ((after init ops).procs q).pageDirectory) hself
  · exact hlead.dir

/-- A process (at 48) with the page directory 32 starts threads at 80 and 112. -/
def threadedProcess : List Op :=
  [.load (.loaded 32 0x400000#64 0x500000#64) 0x7FF000#64 48 64,
    .clone 48 0x400000#64 0x600000#64 0 0x100#64 80 96,
    .clone 80 0x400000#64 0x610000#64 0 0x100#64 112 128]

def leaderReaped : List Op := threadedProcess ++ [.exit 48 0, .reapZombies]

theorem thread_groups_coherent_new_leader : (after 16 leaderReaped).tgLeader 112 = 80 ∧
      ((after 16 leaderReaped).procs ((after 16 leaderReaped).tgLeader 112)).pageDirectory =
        ((after 16 leaderReaped).procs 112).pageDirectory :=
  ⟨by decide +kernel, thread_groups_coherent 16 leaderReaped (by decide +kernel) 112
    (by decide +kernel)⟩

/-- As long as pids are left, every task of the table is the one that its pid finds. -/
theorem findProcess_exact (init : Nat) (ops : List Op)
    (hleft : Admissible step (fun k _ => k.nextPid.toNat < 2 ^ 32) (boot init) ops) {p : Nat}
    (hp : p ∈ (after init ops).table) :
    (after init ops).findProcess ((after init ops).procs p).pid = some p := by
  have hinv := run_invariant (P := fun k => k.blocks.Owned ∧ k.roster.Numbered)
    (fun k op hk hleft => ⟨owned_step k op hk.1, @Roster.numbered_steps _ _ (fun _ _ => True)
      (roster_step k op hk.1 hleft fun _ _ _ _ _ _ => trivial) hk.2⟩)
    (boot init) ops ⟨owned_boot init, (groups_boot init).1⟩ hleft
  exact hinv.2.findProcess hp

theorem findProcess_exact_thread :
    (after 16 leaderReaped).findProcess ((after 16 leaderReaped).procs 112).pid = some 112 :=
  findProcess_exact 16 leaderReaped (by decide) (by decide)

/-- The leader of a group of three calls `execve`: its threads keep the old page directory. -/
theorem execve_divides_group :
    let k := after 16 (threadedProcess ++
      [.execve 48 (.loaded 144 0x400000#64 0x500000#64) 0 0x7FF000#64])
    80 ∈ k.table ∧ (k.procs 80).state = .run ∧ k.tgLeader 80 = 48 ∧
      (k.procs 48).pageDirectory = 144 ∧ (k.procs 80).pageDirectory = 32 := by
  decide

end Nyx.Process
