import Nyx.Process.Kills
import Nyx.Process.SignalFrames

/-! From the delivery of a signal to the `sigreturn` of its handler.

One slot, `sig_saved`, holds the context a handler returns to, and `sig_active` guards it.
While a handler is active no delivery writes the slot, so its `sigreturn` finds the context it
interrupted (`saved_context_kept`); only a `sigprocmask` that unblocks the handler's signal
lifts the guard early (`saved_context_overwritten`). `sigreturn` also unblocks the signal,
which is right unless a fault delivered it while it was blocked (`handler_round_trip_iff`). -/
namespace Nyx.Process
open Nyx.Lib Kernel

/-! ### Delivery -/

/-- The entries that deliver a signal to `p`: the end of a system call, or a fault. -/
def Op.Delivers (p : Nat) : Op → Prop
  | .dispatch self _ | .userFault self .. => self = p
  | _ => False

/-- A handler of `p` is entered. -/
def Enters (k : Kernel) (op : Op) (p : Nat) : Prop :=
  op.Delivers p ∧ (k.sigs p).active = 0#32 ∧ ((step k op).sigs p).active ≠ 0#32

def FaultsMasked (k : Kernel) (p : Nat) : Op → Prop
  | .userFault _ sig _ => ∃ s, signo sig = some s ∧ (k.sigs p).mask &&& sigBit s ≠ 0#32
  | _ => False

section
variable {k : Kernel} {p : Nat}

/-- What a handler finds saved, active and blocked. -/
structure Entered (g g' : SigState) (s : Fin nsig) (context : Frame) : Prop where
  saved : g'.saved = context
  active : g'.active = sigBit s
  mask : g'.mask = g.mask ||| sigBit s

variable {writable : Bool}

theorem entered_deliver {s : Fin nsig} {disp : BitVec 64} (hidle : (k.sigs p).active = 0#32)
    (hactive : ((k.deliver p s disp writable).sigs p).active ≠ 0#32) :
    Entered (k.sigs p) ((k.deliver p s disp writable).sigs p) s (k.procs p).frame := by
  have hconsumed : ((k.modify p (clearPending s)).sigs p).active = 0#32 := by
    rw [sigs, modify_procs_self]
    exact hidle
  simp only [deliver] at hactive ⊢
  split at hactive
  · exact absurd hconsumed hactive
  case isFalse hign =>
    rw [if_neg hign]
    split at hactive
    · refine absurd ?_ hactive
      split
      · exact hconsumed
      · split <;> simpa using hconsumed
    case isFalse hdfl =>
      rw [if_neg hdfl]
      split at hactive
      · exact absurd hidle hactive
      case isFalse hfree =>
        rw [if_neg hfree]
        split at hactive
        case isTrue hw =>
          rw [if_pos hw]
          simp only [sigs, build, modify_procs_self]
          exact ⟨rfl, (congrArg (· ||| sigBit s) hidle).trans BitVec.zero_or, rfl⟩
        case isFalse =>
          refine absurd ?_ hactive
          rw [sigs_exit, sigs, modify_procs_self]
          exact hconsumed

theorem entered_signalDispatch (hidle : (k.sigs p).active = 0#32)
    (hactive : ((k.signalDispatch p writable).sigs p).active ≠ 0#32) :
    ∃ s, (k.sigs p).mask &&& sigBit s = 0#32 ∧
      Entered (k.sigs p) ((k.signalDispatch p writable).sigs p) s (k.procs p).frame := by
  simp only [signalDispatch] at hactive ⊢
  split at hactive
  · exact absurd hidle hactive
  case isFalse hring3 =>
    rw [if_neg hring3]
    split at hactive
    · exact absurd hidle hactive
    case h_2 s hpick =>
      have hready := ((deliverable_eq_some _ _).mp hpick).1
      exact ⟨s, (and_sigBit_eq_zero _ _).mpr hready.2.2, entered_deliver hidle hactive⟩

theorem signalDeliverFault_cases (hidle : (k.sigs p).active = 0#32) (sig : BitVec 32)
    (writable : Bool) :
    (k.signalDeliverFault p sig writable).2 = false ∧
        ((k.signalDeliverFault p sig writable).1.sigs p).active = 0#32 ∨
      (k.signalDeliverFault p sig writable).2 = true ∧ ∃ s, signo sig = some s ∧
        Entered (k.sigs p) ((k.signalDeliverFault p sig writable).1.sigs p) s
          (k.procs p).frame := by
  simp only [signalDeliverFault]
  split
  · exact .inl ⟨rfl, hidle⟩
  split
  · exact .inl ⟨rfl, hidle⟩
  case h_2 s hs =>
    split
    · exact .inl ⟨rfl, hidle⟩
    split
    · refine .inl ⟨rfl, ?_⟩
      rw [sigs, modify_procs_self]
      exact hidle
    · refine .inr ⟨rfl, s, hs, ?_⟩
      simp only [sigs, build, modify_procs_self]
      exact ⟨rfl, (congrArg (· ||| sigBit s) hidle).trans BitVec.zero_or, rfl⟩

theorem entered_userFault {sig : BitVec 32} (hidle : (k.sigs p).active = 0#32)
    (hactive : ((k.userFault p sig writable).sigs p).active ≠ 0#32) :
    ∃ s, signo sig = some s ∧
      Entered (k.sigs p) ((k.userFault p sig writable).sigs p) s (k.procs p).frame := by
  have hcases := signalDeliverFault_cases hidle sig writable
  simp only [userFault] at hactive ⊢
  split at hactive
  case h_1 k' he =>
    rw [he] at hcases
    rcases hcases with ⟨hfalse, _⟩ | ⟨_, hentered⟩
    · cases hfalse
    · exact hentered
  case h_2 k' he =>
    rw [he] at hcases
    rcases hcases with ⟨_, hdead⟩ | ⟨htrue, _⟩
    · rw [sigs_exit] at hactive
      exact absurd hdead hactive
    · cases htrue

/-- A handler that is entered finds the interrupted context saved and its signal, and no
other, active and blocked; a system call delivers only what was not blocked. -/
theorem Enters.entered {op : Op} (h : Enters k op p) :
    ∃ s, Entered (k.sigs p) ((step k op).sigs p) s (k.procs p).frame ∧
      (FaultsMasked k p op ↔ (k.sigs p).mask &&& sigBit s ≠ 0#32) := by
  obtain ⟨hop, hidle, hactive⟩ := h
  rw [step] at hactive ⊢
  split at hactive
  case isFalse => exact absurd hidle hactive
  case isTrue hcaller =>
    rw [if_pos hcaller]
    cases op with
    | dispatch self writable =>
      cases show self = p from hop
      obtain ⟨s, hmask, hentered⟩ := entered_signalDispatch hidle hactive
      exact ⟨s, hentered, iff_of_false id (not_not.mpr hmask)⟩
    | userFault self sig writable =>
      cases show self = p from hop
      obtain ⟨s, hs, hentered⟩ := entered_userFault hidle hactive
      refine ⟨s, hentered, ?_⟩
      constructor
      · rintro ⟨u, hu, hmask⟩
        cases Option.some.inj (hs.symm.trans hu)
        exact hmask
      · exact fun hmask => ⟨s, hs, hmask⟩
    | _ => exact hop.elim

end

/-! ### Inside a handler -/

/-- `p` goes on with its handler: it is there, does not return from the handler and does not
start another image. -/
def Stays (p : Nat) (k : Kernel) (op : Op) : Prop :=
  p ∈ k.table ∧
    match op with
    | .sigreturn self => self ≠ p
    | .execve self image argc sp => self = p → (k.doExecve self image argc sp).2 ≠ 0#32
    | _ => True

/-- `p` changes its mask. -/
def Remasks (p : Nat) : Op → Prop
  | .sigprocmask self _ _ writable => self = p ∧ writable = true
  | _ => False

/-- No change `p` makes to its mask unblocks a signal whose handler is active. -/
def StaysBlocked (p : Nat) (k : Kernel) : Op → Prop
  | .sigprocmask self how set writable => self = p → writable = true →
      (k.sigs p).active &&& maskAfter how (k.sigs p).mask set = (k.sigs p).active
  | _ => True

/-- What the calls and signals in between leave alone. -/
structure Held (g g' : SigState) : Prop where
  saved : g'.saved = g.saved
  active : g'.active = g.active
  mask : g'.mask = g.mask

theorem Held.trans {g g' g'' : SigState} (h : Held g g') (h' : Held g' g'') : Held g g'' :=
  ⟨h'.saved.trans h.saved, h'.active.trans h.active, h'.mask.trans h.mask⟩

theorem held_act {g : SigState} (hactive : g.active ≠ 0#32) {a : SigAct} (hok : a.Allowed g)
    (hreturn : a ≠ .sigreturn) (himage : a ≠ .reimage) (hmask : ∀ how set, a ≠ .remask how set) :
    Held g (a.apply g) := by
  cases a with
  | raise | consume | install => exact ⟨rfl, rfl, rfl⟩
  | enter => exact absurd hok.2 hactive
  | save => exact absurd hok hactive
  | sigreturn => exact absurd rfl hreturn
  | reimage => exact absurd rfl himage
  | remask how set => exact absurd rfl (hmask how set)

theorem held_run {g : SigState} (hactive : g.active ≠ 0#32) {acts : List SigAct}
    (hok : Admissible SigAct.apply SigAct.Allowed g acts)
    (hacts : ∀ a ∈ acts, a ≠ .sigreturn ∧ a ≠ .reimage ∧ ∀ how set, a ≠ .remask how set) :
    Held g (run SigAct.apply g acts) := by
  induction acts generalizing g with
  | nil => exact ⟨rfl, rfl, rfl⟩
  | cons a rest ih =>
    obtain ⟨hreturn, himage, hmask⟩ := hacts a (.head rest)
    have hheld := held_act hactive hok.1 hreturn himage hmask
    refine hheld.trans (ih ?_ hok.2 fun b hb => hacts b (.tail a hb))
    rw [hheld.active]
    exact hactive

section
variable {k : Kernel} {p : Nat}

/-- The acts an entry asks for while `p` stays in its handler. -/
theorem stays_asks {op : Op} (hstays : Stays p k op) (hmask : ¬ Remasks p op) {a : SigAct}
    (ha : k.Asks p op a) : a ≠ .sigreturn ∧ a ≠ .reimage ∧ ∀ how set, a ≠ .remask how set := by
  cases op with
  | kill =>
    obtain ⟨s, rfl⟩ := ha
    exact ⟨nofun, nofun, nofun⟩
  | dispatch =>
    obtain ⟨_, ⟨s, rfl⟩ | ⟨s, rfl⟩ | rfl⟩ := ha
    all_goals exact ⟨nofun, nofun, nofun⟩
  | userFault =>
    obtain ⟨_, ⟨s, rfl⟩ | rfl⟩ := ha
    all_goals exact ⟨nofun, nofun, nofun⟩
  | resumed =>
    obtain ⟨_, rfl⟩ := ha
    exact ⟨nofun, nofun, nofun⟩
  | signal =>
    obtain ⟨_, s, rfl⟩ := ha
    exact ⟨nofun, nofun, nofun⟩
  | sigreturn => exact absurd ha.1.symm hstays.2
  | sigprocmask => exact absurd ⟨ha.1.symm, ha.2.1⟩ hmask
  | execve => exact absurd ha.2.1 (hstays.2 ha.1.symm)
  | _ => exact ha.elim

theorem held_step (hk : k.blocks.Owned) (hactive : (k.sigs p).active ≠ 0#32) {op : Op}
    (hstays : Stays p k op) (hmask : ¬ Remasks p op) : Held (k.sigs p) ((step k op).sigs p) := by
  obtain ⟨acts, hasked, hok, he⟩ := acts_step hk hstays.1 op
  rw [he]
  exact held_run hactive hok fun a ha => stays_asks hstays hmask (hasked a ha)

theorem held_between (hk : k.blocks.Owned) (hactive : (k.sigs p).active ≠ 0#32) (between : List Op)
    (hstays : Admissible step (fun k op => Stays p k op ∧ ¬ Remasks p op) k between) :
    Held (k.sigs p) ((run step k between).sigs p) := by
  induction between generalizing k with
  | nil => exact ⟨rfl, rfl, rfl⟩
  | cons op rest ih =>
    have hheld := held_step hk hactive hstays.1.1 hstays.1.2
    refine hheld.trans (ih (owned_step k op hk) ?_ hstays.2)
    rw [hheld.active]
    exact hactive

/-- A change of the mask that keeps the active signal blocked. -/
theorem remasks_step {op : Op} (hp : p ∈ k.table) (hop : Remasks p op)
    (hblocked : StaysBlocked p k op) :
    ((step k op).sigs p).saved = (k.sigs p).saved ∧
      ((step k op).sigs p).active = (k.sigs p).active := by
  cases op with
  | sigprocmask self how set writable =>
    obtain ⟨rfl, rfl⟩ := hop
    have hcaller : ∀ q ∈ (Op.sigprocmask self how set true).caller, q ∈ k.table := by
      intro q hq
      exact Option.mem_some.mp hq ▸ hp
    rw [step, if_pos hcaller]
    simp only [perform, doSigprocmask, if_true, sigs, modify_procs_self]
    exact ⟨trivial, hblocked rfl rfl⟩
  | _ => exact hop.elim

end

/-! ### The round trip -/

/-- `p` is back in the context `context` with this mask, and no handler is active. -/
structure Restored (k : Kernel) (p : Nat) (context : Frame) (mask : BitVec 32) : Prop where
  frame : (k.procs p).frame = context
  mask : (k.sigs p).mask = mask
  active : (k.sigs p).active = 0#32

theorem sigreturn_step {k : Kernel} {p : Nat} (hp : p ∈ k.table)
    (hactive : (k.sigs p).active ≠ 0#32) :
    Restored (step k (.sigreturn p)) p (k.sigs p).saved
      ((k.sigs p).mask &&& ~~~(k.sigs p).active) := by
  have hcaller : ∀ q ∈ (Op.sigreturn p).caller, q ∈ k.table := by
    intro q hq
    exact Option.mem_some.mp hq ▸ hp
  have hrunning : (k.procs p).sigActive ≠ 0#32 := hactive
  rw [step, if_pos hcaller]
  simp only [perform, doSigreturn, if_neg hrunning]
  refine ⟨?_, ?_, ?_⟩
  all_goals simp only [sigs, modify_procs_self]
  rfl

/-- Adding a signal to a mask and taking it out again. -/
theorem or_and_not_sigBit (w : BitVec 32) (s : Fin nsig) :
    (w ||| sigBit s) &&& ~~~sigBit s = w ↔ w &&& sigBit s = 0#32 := by
  constructor
  · intro h
    rw [← h, BitVec.and_assoc, BitVec.and_comm (~~~sigBit s)]
    simp
  · intro h
    rw [and_sigBit_eq_zero] at h
    apply BitVec.eq_of_getLsbD_eq
    intro i hi
    simp only [BitVec.getLsbD_and, BitVec.getLsbD_or, BitVec.getLsbD_not, getLsbD_sigBit]
    grind

/-- A handler of any task is entered, by a system call or by a fault, and whatever happens in
between, as long as the task does not change its mask, it returns: the task is back in the
context it was interrupted in, with the mask it had, unless a fault delivered a signal that
it had blocked. -/
theorem handler_round_trip_iff (init : Nat) (ops : List Op) (p : Nat) (op : Op)
    (between : List Op) (henters : Enters (after init ops) op p)
    (hstays : Admissible step (fun k op => Stays p k op ∧ ¬ Remasks p op)
      (step (after init ops) op) between)
    (hp : p ∈ (after init (ops ++ op :: between)).table) :
    Restored (step (after init (ops ++ op :: between)) (.sigreturn p)) p
        ((after init ops).procs p).frame ((after init ops).sigs p).mask ↔
      ¬ FaultsMasked (after init ops) p op := by
  have hsplit : after init (ops ++ op :: between) =
      run step (step (after init ops) op) between := run_append ..
  have howned := owned_step _ op (owned_after init ops)
  rw [hsplit] at hp ⊢
  generalize after init ops = k at *
  obtain ⟨s, hentered, hmasked⟩ := henters.entered
  have hheld := held_between howned henters.2.2 between hstays
  generalize run step (step k op) between = k' at *
  have hactive : (k'.sigs p).active = sigBit s := hheld.active.trans hentered.active
  have hsaved : (k'.sigs p).saved = (k.procs p).frame := hheld.saved.trans hentered.saved
  have hmask : (k'.sigs p).mask = (k.sigs p).mask ||| sigBit s := hheld.mask.trans hentered.mask
  have hback := sigreturn_step hp (hactive ▸ sigBit_ne_zero s)
  rw [hactive, hsaved, hmask] at hback
  rw [hmasked, not_not, ← or_and_not_sigBit]
  constructor
  · exact fun h => hback.mask.symm.trans h.mask
  · exact fun h => ⟨hback.frame, hback.mask.trans h, hback.active⟩

/-- A loaded task with a handler for `sig`. -/
def catching (sig : BitVec 32) : List Op :=
  [.load (.loaded 1 0x400000#64 0x500000#64) 0x7FFFFFFFEFE0#64 2 3,
    .signal 2 sig 0x401000#64 0x400100#64]

/-- `SIGUSR1` interrupts a task, which is sent `SIGTERM` inside the handler. -/
theorem handler_round_trip_iff_sigusr1 :
    Enters (after 1 (catching 10#32 ++ [.kill 2#32 10#32])) (.dispatch 2 true) 2 ∧
      Restored (step (after 1 (catching 10#32 ++ [.kill 2#32 10#32] ++
          .dispatch 2 true :: [.kill 2#32 15#32, .trap 2 .zero])) (.sigreturn 2)) 2
        ((after 1 (catching 10#32 ++ [.kill 2#32 10#32])).procs 2).frame
        ((after 1 (catching 10#32 ++ [.kill 2#32 10#32])).sigs 2).mask := by
  have henters : Enters (after 1 (catching 10#32 ++ [.kill 2#32 10#32])) (.dispatch 2 true) 2 :=
    ⟨rfl, by decide, by decide⟩
  refine ⟨henters, (handler_round_trip_iff 1 _ 2 _ [.kill 2#32 15#32, .trap 2 .zero] henters
    ?_ (by decide)).mpr id⟩
  exact ⟨⟨⟨by decide, trivial⟩, id⟩, ⟨⟨by decide, trivial⟩, id⟩, trivial⟩

/-- A task blocks `SIGSEGV` and faults: its handler is entered all the same, and once it has
returned `SIGSEGV` is no longer blocked. -/
theorem blocked_fault_unblocks :
    Enters (after 1 (catching 11#32 ++ [.sigprocmask 2 0#32 (sigBit 11) true]))
        (.userFault 2 11#32 true) 2 ∧
      ¬ Restored (step (after 1 (catching 11#32 ++ [.sigprocmask 2 0#32 (sigBit 11) true] ++
          [.userFault 2 11#32 true])) (.sigreturn 2)) 2
        ((after 1 (catching 11#32 ++ [.sigprocmask 2 0#32 (sigBit 11) true])).procs 2).frame
        ((after 1 (catching 11#32 ++ [.sigprocmask 2 0#32 (sigBit 11) true])).sigs 2).mask :=
  ⟨⟨rfl, by decide, by decide⟩, fun h => absurd h.mask (by decide)⟩

/-! ### The slot -/

section
variable {k : Kernel} {p : Nat}

theorem kept_step (hk : k.blocks.Owned) (hactive : (k.sigs p).active ≠ 0#32) {op : Op}
    (hstays : Stays p k op) (hblocked : StaysBlocked p k op) :
    ((step k op).sigs p).saved = (k.sigs p).saved ∧
      ((step k op).sigs p).active = (k.sigs p).active := by
  by_cases hmask : Remasks p op
  · exact remasks_step hstays.1 hmask hblocked
  have hheld := held_step hk hactive hstays hmask
  exact ⟨hheld.saved, hheld.active⟩

theorem kept_between (hk : k.blocks.Owned) (hactive : (k.sigs p).active ≠ 0#32) (between : List Op)
    (hstays : Admissible step (fun k op => Stays p k op ∧ StaysBlocked p k op) k between) :
    ((run step k between).sigs p).saved = (k.sigs p).saved ∧
      ((run step k between).sigs p).active = (k.sigs p).active := by
  induction between generalizing k with
  | nil => exact ⟨rfl, rfl⟩
  | cons op rest ih =>
    obtain ⟨hsaved, hsame⟩ := kept_step hk hactive hstays.1.1 hstays.1.2
    obtain ⟨hrest, hrestActive⟩ := ih (owned_step k op hk) (hsame ▸ hactive) hstays.2
    exact ⟨hrest.trans hsaved, hrestActive.trans hsame⟩

end

/-- A handler of any task is entered. As long as no `sigprocmask` of the task unblocks the
handler's signal, the context the handler interrupted stays in the slot, at every point of
every run until it returns, and its `sigreturn` restores it. -/
theorem saved_context_kept (init : Nat) (ops : List Op) (p : Nat) (op : Op) (between : List Op)
    (henters : Enters (after init ops) op p)
    (hstays : Admissible step (fun k op => Stays p k op ∧ StaysBlocked p k op)
      (step (after init ops) op) between)
    (hp : p ∈ (after init (ops ++ op :: between)).table) :
    (∀ ran rest, between = ran ++ rest →
        ((after init (ops ++ op :: ran)).sigs p).saved = ((after init ops).procs p).frame) ∧
      ((step (after init (ops ++ op :: between)) (.sigreturn p)).procs p).frame =
        ((after init ops).procs p).frame := by
  have hsplit (ran : List Op) : after init (ops ++ op :: ran) =
      run step (step (after init ops) op) ran := run_append ..
  obtain ⟨s, hentered, _⟩ := henters.entered
  have howned := owned_step _ op (owned_after init ops)
  constructor
  · intro ran rest he
    rw [he, admissible_append] at hstays
    rw [hsplit, (kept_between howned henters.2.2 ran hstays.1).1, hentered.saved]
  · obtain ⟨hsaved, hactive⟩ := kept_between howned henters.2.2 between hstays
    rw [hsplit] at hp ⊢
    rw [(sigreturn_step hp (hactive ▸ henters.2.2)).frame, hsaved, hentered.saved]

/-- Inside the handler of `SIGUSR1`: `SIGTERM` arrives, and the mask is made to block every
signal. -/
theorem saved_context_kept_masked :
    Enters (after 1 (catching 10#32 ++ [.kill 2#32 10#32])) (.dispatch 2 true) 2 ∧
      ((step (after 1 (catching 10#32 ++ [.kill 2#32 10#32] ++ .dispatch 2 true ::
          [.kill 2#32 15#32, .sigprocmask 2 2#32 0xFFFFFFFF#32 true])) (.sigreturn 2)).procs 2).frame =
        ((after 1 (catching 10#32 ++ [.kill 2#32 10#32])).procs 2).frame := by
  have henters : Enters (after 1 (catching 10#32 ++ [.kill 2#32 10#32])) (.dispatch 2 true) 2 :=
    ⟨rfl, by decide, by decide⟩
  refine ⟨henters, (saved_context_kept 1 _ 2 _ _ henters ?_ (by decide)).2⟩
  exact ⟨⟨⟨by decide, trivial⟩, trivial⟩, ⟨⟨by decide, trivial⟩, fun _ _ => by decide⟩, trivial⟩

/-- Inside the handler of `SIGUSR1`, which was entered from `0x400000`, the task unblocks
`SIGUSR1` at `0x401080` and is sent it again: the second delivery saves `0x401080` over the
first context, and the `sigreturn` of the first handler, after that of the second, finds no
handler active and restores nothing. -/
theorem saved_context_overwritten :
    let entered := catching 10#32 ++ [.kill 2#32 10#32, .dispatch 2 true]
    let unblocked := entered ++ [.trap 2 {Frame.zero with rip := 0x401080#64},
      .sigprocmask 2 1#32 (sigBit 10) true, .kill 2#32 10#32, .dispatch 2 true]
    let returning := unblocked ++ [.trap 2 .zero, .sigreturn 2,
      .trap 2 {Frame.zero with rip := 0x400100#64}]
    Enters (after 1 (catching 10#32 ++ [.kill 2#32 10#32])) (.dispatch 2 true) 2 ∧
      ((after 1 (catching 10#32 ++ [.kill 2#32 10#32])).procs 2).frame.rip = 0x400000#64 ∧
      ((after 1 unblocked).sigs 2).saved.rip = 0x401080#64 ∧
      ((step (after 1 returning) (.sigreturn 2)).procs 2).frame.rip = 0x400100#64 := by
  refine ⟨⟨rfl, by decide, by decide⟩, by decide, by decide, by decide⟩

end Nyx.Process
