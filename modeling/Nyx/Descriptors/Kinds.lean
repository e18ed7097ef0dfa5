import Nyx.Descriptors.Lives

/-! Handles and the layers they belong to.

A descriptor is a pipe end, a socket or a file by the tag of its handle. Three system calls
do not look: `SYS_FSIZE` asks the VFS about any descriptor, `SYS_MMAP` about any that is not
a pipe end, and `SYS_DUP2` closes what it replaces as a pipe end or a file. Without these,
and while pids last, every call goes to the layer of its handle and no slot loses a handle
without a release there. -/
namespace Nyx.Descriptors
open Nyx.Process Nyx.Process.Kernel List

namespace Book

/-- Every call is made in the layer of its handle, a release follows a creation in the same
layer, and so does every handle in a slot. -/
structure Kinds (b : Book) : Prop where
  sound : ∀ c ∈ b.calls, c.Sound
  proper : ∀ c ∈ b.calls, c.Proper b.calls
  made : ∀ p i h, b.slot p i = some h → makeCall h ∈ b.calls

variable {b b' : Book} {may : BitVec 32 → Prop}

theorem Kinds.extend (hb : b.Kinds) {new : List Call} (hcalls : b'.calls = b.calls ++ new)
    (hok : ∀ c ∈ new, c.Sound) (hproper : ∀ c ∈ new, c.Proper b'.calls)
    (hmade : ∀ p i h, b'.slot p i = some h → makeCall h ∈ b'.calls) : b'.Kinds := by
  have hsub (c : Call) (hc : c ∈ b.calls) : c ∈ b'.calls := by
    rw [hcalls]
    exact mem_append_left _ hc
  refine ⟨?_, ?_, hmade⟩
  · intro c hc
    rw [hcalls] at hc
    exact (mem_append.mp hc).elim (hb.sound c) (hok c)
  · intro c hc
    rw [hcalls] at hc
    exact (mem_append.mp hc).elim (fun hc => (hb.proper c hc).mono hsub) (hproper c)

theorem Kinds.slots (hb : b.Kinds) (hcalls : b'.calls = b.calls)
    (hmade : ∀ p i h, b'.slot p i = some h → makeCall h ∈ b.calls) : b'.Kinds :=
  ⟨hcalls ▸ hb.sound, hcalls ▸ hb.proper, hcalls ▸ hmade⟩

variable {i : Fin procMaxFds} {ok : Call → Prop}

/-- A slot of the table is filled with a created handle, or emptied. -/
theorem Kinds.set (hb : b.Kinds) {p : Nat} {v : Option (BitVec 32)}
    (hv : ∀ h, v = some h → makeCall h ∈ b.calls) : (b.set p i v).Kinds := by
  refine hb.slots rfl fun q j h hq => ?_
  rw [set_slot] at hq
  split at hq
  · exact hv h hq
  · exact hb.made q j h hq

theorem kinds_step (hb : b.Kinds) (hs : Step Call.Sound may b b') : b'.Kinds := by
  cases hs with
  | ask hok hproper =>
    exact hb.extend rfl hok hproper fun p i h hi => mem_append_left _ (hb.made p i h hi)
  | record hid p => exact hb.slots rfl hb.made
  | put hfree hmade hmay =>
    refine hb.set fun h hh => ?_
    injection hh with hh
    subst hh
    rcases hmade with hmade | ⟨q, j, hq⟩
    · exact hmade.1
    · exact hb.made q j _ hq
  | @socket p i id hfree hid hmake hmaker =>
    have hset : (b.set p i (some (ufdSockMake id))).Kinds := by
      refine hb.set fun h hh => ?_
      injection hh with hh
      rw [← hh, makeCall_sock]
      exact hmake
    exact hset.slots rfl hset.made
  | @drop p i h hin =>
    have hset : (b.set p i none).Kinds := hb.set fun _ hh => nomatch hh
    refine hset.extend rfl ?_ ?_ fun q j h hq => mem_append_left _ (hset.made q j h hq)
    · intro c hc
      rw [mem_singleton.mp hc]
      exact releaseCall_sound h
    · intro c hc
      rw [mem_singleton.mp hc]
      exact releaseCall_proper (mem_append_left _ (hb.made p i h hin))
  | @shift p i j h hin hfree =>
    have hset : (b.set p i none).Kinds := hb.set fun _ hh => nomatch hh
    refine hset.set fun h' hh => ?_
    injection hh with hh
    rw [← hh]
    exact hb.made p i h hin
  | @share p hfree given hgiven =>
    refine hb.slots rfl fun q j h hq => ?_
    rcases eq_or_ne q p with rfl | hne
    · rw [give_self] at hq
      obtain ⟨_, q', j', hq'⟩ := hgiven j h hq
      exact hb.made q' j' h hq'
    · rw [give_ne b hne] at hq
      exact hb.made q j h hq

theorem kinds_steps (hs : Relation.ReflTransGen (Step Call.Sound may) b b') (hb : b.Kinds) :
    b'.Kinds := by
  induction hs with
  | refl => exact hb
  | tail _ hstep ih => exact kinds_step ih hstep

/-! ### Slots that are emptied -/

/-- The slots of `p` that hold the handle `h`. -/
def holding (b : Book) (p : Nat) (h : BitVec 32) : Finset (Fin procMaxFds) :=
  Finset.univ.filter fun i => b.slot p i = some h

theorem mem_holding {p : Nat} {h : BitVec 32} : i ∈ b.holding p h ↔ b.slot p i = some h := by
  rw [holding, Finset.mem_filter]
  exact and_iff_right (Finset.mem_univ i)

/-- Between `b` and `b'` every table lost at most as many slots with a handle as there were
releases of that handle in its layer. -/
def Released (b b' : Book) : Prop :=
  ∃ new, b'.calls = b.calls ++ new ∧ ∀ p h,
    (b.holding p h).card ≤ (b'.holding p h).card + new.count (releaseCall h)

theorem Released.refl (b : Book) : b.Released b :=
  ⟨[], (append_nil _).symm, fun _ _ => Nat.le_add_right ..⟩

theorem Released.trans {b'' : Book} (h : b.Released b') (h' : b'.Released b'') :
    b.Released b'' := by
  obtain ⟨new, hcalls, hcount⟩ := h
  obtain ⟨new', hcalls', hcount'⟩ := h'
  refine ⟨new ++ new', by rw [hcalls', hcalls, append_assoc], fun p a => ?_⟩
  have h₁ := hcount p a
  have h₂ := hcount' p a
  rw [count_append]
  omega

theorem Released.of_le {new : List Call} (hcalls : b'.calls = b.calls ++ new)
    (hkept : ∀ p i h, b.slot p i = some h → b'.slot p i = some h) : b.Released b' := by
  refine ⟨new, hcalls, fun p h => Nat.le_add_right_of_le (Finset.card_le_card fun i hi => ?_)⟩
  rw [mem_holding] at hi ⊢
  exact hkept p i h hi

theorem released_set {p : Nat} (hfree : b.slot p i = none) (v : Option (BitVec 32)) (q : Nat)
    (j : Fin procMaxFds) (h : BitVec 32) (hq : b.slot q j = some h) :
    (b.set p i v).slot q j = some h := by
  rw [set_slot, if_neg, hq]
  intro he
  rw [he.1, he.2, hfree] at hq
  cases hq

theorem released_step (hs : Step ok may b b') : b.Released b' := by
  cases hs with
  | ask => exact .of_le rfl fun _ _ _ h => h
  | record hid p => exact .of_le (append_nil _).symm fun _ _ _ h => h
  | put hfree hmade hmay => exact .of_le (append_nil _).symm (released_set hfree _)
  | socket hfree hid hmake hmaker =>
    exact .of_le (append_nil _).symm (released_set hfree _)
  | @drop p i h hin =>
    refine ⟨[releaseCall h], rfl, fun q a => ?_⟩
    -- The emptied slot is the one that was released.
    have hsub : b.holding q a ⊆ if q = p ∧ a = h then insert i ((b.set p i none).holding q a)
        else (b.set p i none).holding q a := by
      intro j hj
      rw [mem_holding] at hj
      split
      case isTrue he =>
        rw [Finset.mem_insert, mem_holding, set_slot]
        by_cases hji : j = i
        · exact .inl hji
        · exact .inr (by rw [if_neg fun h => hji h.2, hj])
      case isFalse hne =>
        rw [mem_holding, set_slot, if_neg, hj]
        intro he
        rw [he.1, he.2, hin] at hj
        exact hne ⟨he.1, (Option.some.inj hj).symm⟩
    have hcard := Finset.card_le_card hsub
    split at hcard
    case isTrue he =>
      rw [he.2, count_singleton_self]
      rw [he.2] at hcard
      exact hcard.trans (Finset.card_insert_le _ _)
    case isFalse => exact Nat.le_add_right_of_le hcard
  | @shift p i j h hin hfree =>
    refine ⟨[], (append_nil _).symm, fun q a => Nat.le_add_right_of_le ?_⟩
    have hij : i ≠ j := by
      intro he
      rw [he, hfree] at hin
      cases hin
    -- What was at `i` is at `j` afterwards; everything else stays.
    by_cases hq : q = p
    · refine Finset.card_le_card_of_injOn (Equiv.swap i j) (fun k hk => ?_)
        (Equiv.swap i j).injective.injOn
      rw [Finset.mem_coe, mem_holding] at hk ⊢
      rw [set_slot, set_slot]
      rcases eq_or_ne k i with rfl | hki
      · rw [Equiv.swap_apply_left, if_pos ⟨hq, rfl⟩, ← hin, ← hq, hk]
      have hkj : k ≠ j := by
        intro he
        rw [hq, he, hfree] at hk
        cases hk
      rw [Equiv.swap_apply_of_ne_of_ne hki hkj, if_neg fun h => hkj h.2, if_neg fun h => hki h.2,
        hk]
    · refine Finset.card_le_card fun k hk => ?_
      rw [mem_holding] at hk ⊢
      rw [set_slot, set_slot, if_neg fun h => hq h.1, if_neg fun h => hq h.1, hk]
  | @share p hfree given hgiven =>
    refine .of_le (append_nil _).symm fun q j h hq => ?_
    have hne : q ≠ p := by
      intro he
      rw [he, hfree] at hq
      cases hq
    rw [give_ne b hne]
    exact hq

theorem released_steps (hs : Relation.ReflTransGen (Step ok may) b b') : b.Released b' := by
  induction hs with
  | refl => exact .refl b
  | tail _ hstep ih => exact ih.trans (released_step hstep)

end Book

/-! ### Runs -/

variable (s : Io)

/-- What the descriptor `fd` of the caller holds, if it is open. -/
def Io.handleIs (self : Nat) (fd : BitVec 32) (kind : BitVec 32 → Bool) : Bool :=
  match s.ufdLookup self fd with
  | none => true
  | some (_, h) => kind h

theorem Io.handleIs_lookup {s : Io} {self : Nat} {fd : BitVec 32} {kind : BitVec 32 → Bool}
    (hk : s.handleIs self fd kind = true) {i : Fin procMaxFds} {h : BitVec 32}
    (hl : s.ufdLookup self fd = some (i, h)) : kind h = true := by
  rwa [Io.handleIs, hl] at hk

/-- Would `dup2` replace a socket? -/
def Io.replacesSocket (self : Nat) (oldfd newfd : BitVec 32) : Bool :=
  newfd != oldfd && (s.ufdLookup self oldfd).isSome && !s.handleIs self newfd (!isSocket ·)

/-- A size is asked of files only, no socket is mapped or replaced, and fewer than 2^32 tasks
were created. -/
def ByKind (sys : Sys) : Prop :=
  s.kernel.nextPid.toNat < 2 ^ 32 ∧
    match sys with
    | .fsize self fd _ => s.handleIs self fd (fun h => !isPipe h && !isSock h) = true
    | .mmap self _ _ fd _ _ _ _ => s.handleIs self fd (!isSocket ·) = true
    | .dup2 self oldfd newfd => s.replacesSocket self oldfd newfd = false
    | _ => True

instance (s : Io) (sys : Sys) : Decidable (ByKind s sys) := by
  cases sys <;> exact inferInstanceAs (Decidable (_ ∧ _))

/-- The replaced slot, as `dup2` finds it. -/
theorem Io.not_socket_of_replaces {s : Io} {self : Nat} {oldfd newfd : BitVec 32}
    (hr : s.replacesSocket self oldfd newfd = false) {i j : Fin procMaxFds} {h : BitVec 32}
    (hl : s.ufdLookup self oldfd = some (i, h)) (hj : slotOf newfd = some j)
    (hne : newfd ≠ oldfd) (hin : (s.kernel.procs (s.fdOwner self)).ufdInuse j = true) :
    isSocket ((s.kernel.procs (s.fdOwner self)).ufdHandle j) = false := by
  have hnew : s.ufdLookup self newfd = some (j, (s.kernel.procs (s.fdOwner self)).ufdHandle j) := by
    rw [Io.ufdLookup, hj]
    exact if_pos hin
  rw [Io.replacesSocket, hl, Io.handleIs, hnew] at hr
  simpa [hne] using hr

theorem allows_of_byKind {s : Io} {sys : Sys} (h : ByKind s sys) :
    s.Allows Call.Sound (fun _ => True) sys := by
  cases sys with
  | fsize self fd env =>
    intro i a hl
    have hk := Io.handleIs_lookup h.2 hl
    rw [Bool.and_eq_true, Bool.not_eq_true', Bool.not_eq_true'] at hk
    exact hk
  | mmap self length prot fd off block readable env =>
    intro i a hl hp
    have hk := Io.handleIs_lookup h.2 hl
    rw [isSocket, hp, Bool.not_eq_true'] at hk
    exact ⟨⟨hp, hk⟩, hp, hk⟩
  | dup2 => exact fun i a j hl hj hne hin => Io.not_socket_of_replaces h.2 hl hj hne hin
  | dup => exact fun _ _ _ => trivial
  | _ => trivial

/-- Every call so far was made in the layer of its handle and every release follows a
creation there; and from `s` on, a descriptor table loses a handle only to a release. -/
structure KindSound (s s' : Io) : Prop where
  sound : ∀ c ∈ s'.calls, c.Sound
  proper : ∀ c ∈ s'.calls, c.Proper s'.calls
  released : s.book.Released s'.book

theorem kinds_run (sys : Sys) (h : s.Sane ∧ s.book.Kinds) (hrule : ByKind s sys) :
    (s.step sys).Sane ∧ (s.step sys).book.Kinds := by
  obtain ⟨hsane, hsteps⟩ := Io.does_step (fun _ hc => hc) (fun _ _ => trivial) hrule.1 sys
    (allows_of_byKind hrule) h.1
  exact ⟨hsane, Book.kinds_steps hsteps h.2⟩

theorem kinds_boot (init : Nat) : (Io.boot init).Sane ∧ (Io.boot init).book.Kinds := by
  refine ⟨Io.sane_boot init, ?_⟩
  rw [Io.book_boot]
  exact ⟨fun _ hc => absurd hc not_mem_nil, fun _ hc => absurd hc not_mem_nil,
    fun _ _ _ hi => nomatch hi⟩

/-- Over every run that keeps `SYS_FSIZE`, `SYS_MMAP` and `SYS_DUP2` to the descriptors they
handle, calls go to the layer of their handle, and a slot is emptied by a release there. -/
theorem handle_kinds_sound (init : Nat) (calls : List Sys) (last : Sys)
    (h : Lib.Admissible Io.step ByKind (Io.boot init) (calls ++ [last])) :
    KindSound (Io.after init calls) (Io.after init (calls ++ [last])) := by
  obtain ⟨hcalls, hlast⟩ := (Lib.admissible_append ..).mp h
  have hinv := Lib.run_invariant kinds_run (Io.boot init) calls (kinds_boot init) hcalls
  have hend : Io.after init (calls ++ [last]) = (Io.after init calls).step last := Lib.run_append ..
  have hkinds := kinds_run _ last hinv hlast.1
  obtain ⟨_, hsteps⟩ := Io.does_step (fun _ hc => hc) (fun _ _ => trivial) hlast.1.1 last
    (allows_of_byKind hlast.1) hinv.1
  rw [hend]
  exact ⟨hkinds.2.sound, hkinds.2.proper, Book.released_steps hsteps⟩

/-- A process (at 48) opens a socket (descriptor 3), a pipe (4 and 5) and a file (6), and
closes the file. -/
def opensAll : List Sys :=
  [.process (.load (.loaded 32 0x400000#64 0x500000#64) 0x7FF000#64 48 64),
    .socket 48 sockStream .good, .pipe 48 .good,
    .open 48 (some ⟨0x1000#32, by decide⟩) false .good, .close 48 6#32]

/-- It exits: the socket and both ends of the pipe are closed. -/
theorem handle_kinds_sound_exit :
    (Io.after 16 (opensAll ++ [.process (.exit 48 0)])).calls.length = 8 ∧
      KindSound (Io.after 16 opensAll) (Io.after 16 (opensAll ++ [.process (.exit 48 0)])) :=
  ⟨by decide +kernel, handle_kinds_sound 16 opensAll (.process (.exit 48 0)) (by decide +kernel)⟩

/-- The VFS is asked for the size of a socket and of a pipe end and to read a socket, and a
socket that `dup2` replaces is closed as a file. -/
theorem vfs_called_for_sockets_and_pipes :
    .vfs .fsize 0x20000000#32 ∈ (Io.after 16 (opensAll ++ [.fsize 48 3#32 .good])).calls ∧
      .vfs .fsize 0x40000000#32 ∈ (Io.after 16 (opensAll ++ [.fsize 48 4#32 .good])).calls ∧
      .vfs .pread 0x20000000#32 ∈
        (Io.after 16 (opensAll ++ [.mmap 48 4096#64 3#32 3#32 0 80 true ⟨true, true, 8⟩])).calls ∧
      .vfs .close 0x20000000#32 ∈ (Io.after 16 (opensAll ++ [.dup2 48 4#32 3#32])).calls ∧
      .nsock .close 0x20000000#32 ∉ (Io.after 16 (opensAll ++ [.dup2 48 4#32 3#32])).calls := by
  decide +kernel

end Nyx.Descriptors
