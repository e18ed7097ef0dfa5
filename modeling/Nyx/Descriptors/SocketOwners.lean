import Nyx.Descriptors.Kinds

/-! Sockets and the descriptors that name them.

A socket has no reference count, so it must be named by one descriptor: `SYS_DUP` copies the
handle, and closing either descriptor closes the socket for both; `SYS_DUP2` forgets the
socket it replaces. Without these, and while pids last, every socket in use is named by
exactly one descriptor, of the table it was made for. -/
namespace Nyx.Descriptors
open Nyx.Process Nyx.Process.Kernel

namespace Book

/-- A socket handle in a slot names a socket in use that was made for that table, no two
slots name the same socket, and every socket in use is named. -/
structure Sockets (b : Book) : Prop where
  valid : ∀ p i h, b.slot p i = some h → isSocket h = true →
    ∃ id, h = ufdSockMake id ∧ b.inUse id = true ∧ b.makers id = p
  single : ∀ p i q j id, b.slot p i = some (ufdSockMake id) →
    b.slot q j = some (ufdSockMake id) → p = q ∧ i = j
  named : ∀ id, b.inUse id = true → ∃ p i, b.slot p i = some (ufdSockMake id)

variable {b b' : Book}

theorem Sockets.of_slot (hb : b.Sockets) {p : Nat} {i : Fin procMaxFds} {id : Fin maxSockets}
    (hi : b.slot p i = some (ufdSockMake id)) : b.inUse id = true ∧ b.makers id = p := by
  obtain ⟨id', he, hin, hmaker⟩ := hb.valid p i _ hi (isSocket_make id)
  rw [ufdSockMake_inj he]
  exact ⟨hin, hmaker⟩

theorem Sockets.congr (hb : b.Sockets) (hin : b'.inUse = b.inUse)
    (hmakers : ∀ id, b.inUse id = true → b'.makers id = b.makers id)
    (hsame : ∀ p i h, isSocket h = true → (b'.slot p i = some h ↔ b.slot p i = some h)) :
    b'.Sockets := by
  refine ⟨?_, ?_, ?_⟩
  · intro p i h hi hs
    obtain ⟨id, he, hid, hmaker⟩ := hb.valid p i h ((hsame p i h hs).mp hi) hs
    exact ⟨id, he, hin ▸ hid, (hmakers id hid).trans hmaker⟩
  · intro p i q j id hi hj
    have hs := isSocket_make id
    exact hb.single p i q j id ((hsame p i _ hs).mp hi) ((hsame q j _ hs).mp hj)
  · intro id hid
    rw [hin] at hid
    obtain ⟨p, i, hi⟩ := hb.named id hid
    exact ⟨p, i, (hsame p i _ (isSocket_make id)).mpr hi⟩

theorem Sockets.create (hb : b.Sockets) {p : Nat} {i : Fin procMaxFds} {id : Fin maxSockets}
    (hfree : b.slot p i = none) (hid : b.inUse id = false) (hmaker : b.makers id = p) :
    (b.create p i id).Sockets := by
  have hslot (q : Nat) (j : Fin procMaxFds) := b.set_slot p i (some (ufdSockMake id)) q j
  have hunnamed (q : Nat) (j : Fin procMaxFds) : b.slot q j ≠ some (ufdSockMake id) := by
    intro hj
    rw [(hb.of_slot hj).1] at hid
    cases hid
  refine ⟨?_, ?_, ?_⟩
  · intro q j h hj hs
    replace hj := (hslot q j).symm.trans hj
    split at hj
    case isTrue he =>
      injection hj with hj
      exact ⟨id, hj.symm, Function.update_self .., hmaker.trans he.1.symm⟩
    case isFalse =>
      obtain ⟨id', he, hin, hmk⟩ := hb.valid q j h hj hs
      have hne : id' ≠ id := fun h => hunnamed q j (h ▸ he ▸ hj)
      exact ⟨id', he, (Function.update_of_ne hne ..).trans hin, hmk⟩
  · intro q j q' j' id' hj hj'
    replace hj := (hslot q j).symm.trans hj
    replace hj' := (hslot q' j').symm.trans hj'
    split at hj
    case isTrue he =>
      injection hj with hj
      split at hj'
      case isTrue he' => exact ⟨he.1.trans he'.1.symm, he.2.trans he'.2.symm⟩
      case isFalse => exact absurd (hj ▸ hj') (hunnamed q' j')
    case isFalse =>
      split at hj'
      case isTrue he' =>
        injection hj' with hj'
        exact absurd (hj' ▸ hj) (hunnamed q j)
      case isFalse => exact hb.single q j q' j' id' hj hj'
  · intro id' hid'
    rcases eq_or_ne id' id with rfl | hne
    · exact ⟨p, i, (hslot p i).trans (if_pos ⟨rfl, rfl⟩)⟩
    obtain ⟨q, j, hj⟩ := hb.named id' ((Function.update_of_ne hne ..).symm.trans hid')
    refine ⟨q, j, (hslot q j).trans ?_⟩
    rw [if_neg, hj]
    intro he
    rw [he.1, he.2, hfree] at hj
    cases hj

theorem Sockets.release (hb : b.Sockets) {p : Nat} {i : Fin procMaxFds} {id : Fin maxSockets}
    (hin : b.slot p i = some (ufdSockMake id)) : (b.release p i (ufdSockMake id)).Sockets := by
  have hslot (q : Nat) (j : Fin procMaxFds) := b.set_slot p i none q j
  have hold {q : Nat} {j : Fin procMaxFds} {h : BitVec 32} (hj : (b.set p i none).slot q j = some h) :
      b.slot q j = some h ∧ ¬(q = p ∧ j = i) := by
    rw [hslot] at hj
    split at hj
    · cases hj
    case isFalse hne => exact ⟨hj, hne⟩
  refine ⟨?_, ?_, ?_⟩
  · intro q j h hj hs
    obtain ⟨hj, hne⟩ := hold hj
    obtain ⟨id', he, hid', hmaker⟩ := hb.valid q j h hj hs
    refine ⟨id', he, (freed_sock ..).mpr ⟨hid', ?_⟩, hmaker⟩
    intro heq
    rw [he, heq] at hj
    exact hne (hb.single q j p i id hj hin)
  · exact fun q j q' j' id' hj hj' => hb.single q j q' j' id' (hold hj).1 (hold hj').1
  · intro id' hid'
    obtain ⟨hid', hne⟩ := (freed_sock ..).mp hid'
    obtain ⟨q, j, hj⟩ := hb.named id' hid'
    refine ⟨q, j, (hslot q j).trans ?_⟩
    rw [if_neg, hj]
    intro he
    rw [he.1, he.2, hin] at hj
    injection hj with hj
    exact hne (ufdSockMake_inj hj).symm

/-- A handle moves to a free slot of the same table. -/
theorem Sockets.shift (hb : b.Sockets) {p : Nat} {i j : Fin procMaxFds} {h : BitVec 32}
    (hin : b.slot p i = some h) (hfree : b.slot p j = none) :
    ((b.set p i none).set p j (some h)).Sockets := by
  -- `from q k` is where the handle found at `(q, k)` was before.
  let source (q : Nat) (k : Fin procMaxFds) : Fin procMaxFds := if q = p ∧ k = j then i else k
  have hsource (q : Nat) (k : Fin procMaxFds) (a : BitVec 32)
      (hk : ((b.set p i none).set p j (some h)).slot q k = some a) :
      b.slot q (source q k) = some a ∧ (q = p → k = j ∨ k ≠ i) := by
    rw [set_slot, set_slot] at hk
    split at hk
    case isTrue he =>
      rw [show source q k = i from if_pos he, he.1, hin]
      exact ⟨hk, fun _ => .inl he.2⟩
    case isFalse hne =>
      rw [show source q k = k from if_neg hne]
      split at hk
      · cases hk
      case isFalse hne' => exact ⟨hk, fun hq => .inr fun hki => hne' ⟨hq, hki⟩⟩
  refine ⟨?_, ?_, ?_⟩
  · intro q k a hk hs
    exact hb.valid q (source q k) a (hsource q k a hk).1 hs
  · intro q k q' k' id hk hk'
    obtain ⟨hs, hd⟩ := hsource q k _ hk
    obtain ⟨hs', hd'⟩ := hsource q' k' _ hk'
    obtain ⟨hq, hkk⟩ := hb.single _ _ _ _ id hs hs'
    refine ⟨hq, ?_⟩
    by_cases hp : q = p
    · have hp' : q' = p := hq ▸ hp
      by_cases hj : k = j <;> by_cases hj' : k' = j
      · exact hj.trans hj'.symm
      · simp only [source, hp, hp', hj, hj', and_self, and_false, if_true, if_false] at hkk
        exact absurd hkk.symm ((hd' hp').resolve_left hj')
      · simp only [source, hp, hp', hj, hj', and_self, and_false, if_true, if_false] at hkk
        exact absurd hkk ((hd hp).resolve_left hj)
      · simpa only [source, hj, hj', and_false, if_false] using hkk
    · have hp' : q' ≠ p := hq ▸ hp
      simpa only [source, hp, hp', false_and, if_false] using hkk
  · intro id hid
    obtain ⟨q, k, hk⟩ := hb.named id hid
    by_cases he : q = p ∧ k = i
    · refine ⟨p, j, ?_⟩
      rw [he.1, he.2, hin] at hk
      rw [set_slot, if_pos ⟨rfl, rfl⟩, hk]
    refine ⟨q, k, ?_⟩
    rw [set_slot, if_neg, set_slot, if_neg he, hk]
    intro hj
    rw [hj.1, hj.2, hfree] at hk
    cases hk

variable {ok : Call → Prop}

theorem sockets_step (hb : b.Sockets) (hs : Step ok (isSocket · = false) b b') : b'.Sockets := by
  cases hs with
  | ask => exact hb.congr rfl (fun _ _ => rfl) fun _ _ _ _ => Iff.rfl
  | @record id hid p =>
    refine hb.congr rfl (fun id' hid' => Function.update_of_ne ?_ ..) fun _ _ _ _ => Iff.rfl
    intro he
    rw [he, hid] at hid'
    cases hid'
  | @put p i h hfree hmade hmay =>
    refine hb.congr rfl (fun _ _ => rfl) fun q j a ha => ?_
    rw [set_slot]
    split
    case isTrue he =>
      rw [he.1, he.2, hfree]
      refine ⟨fun hh => ?_, fun hh => nomatch hh⟩
      injection hh with hh
      rw [← hh, hmay] at ha
      cases ha
    case isFalse => exact Iff.rfl
  | socket hfree hid hmake hmaker => exact hb.create hfree hid hmaker
  | @drop p i h hin =>
    cases hsock : isSocket h with
    | true =>
      obtain ⟨id, rfl, _⟩ := hb.valid p i h hin hsock
      exact hb.release hin
    | false =>
      refine hb.congr (freed_of_not_socket hsock _) (fun _ _ => rfl) fun q j a ha => ?_
      show (b.set p i none).slot q j = _ ↔ _
      rw [set_slot]
      split
      case isTrue he =>
        rw [he.1, he.2, hin]
        refine ⟨fun hh => (nomatch hh), fun hh => ?_⟩
        injection hh with hh
        rw [← hh, hsock] at ha
        cases ha
      case isFalse => exact Iff.rfl
  | shift hin hfree => exact hb.shift hin hfree
  | @share p hfree given hgiven =>
    refine hb.congr rfl (fun _ _ => rfl) fun q j a ha => ?_
    rcases eq_or_ne q p with rfl | hne
    · rw [give_self, hfree]
      refine ⟨fun hh => ?_, fun hh => nomatch hh⟩
      have hpipe := (hgiven j a hh).1
      rw [isSocket, hpipe] at ha
      cases ha
    · rw [give_ne b hne]

theorem sockets_steps (hs : Relation.ReflTransGen (Step ok (isSocket · = false)) b b')
    (hb : b.Sockets) : b'.Sockets := by
  induction hs with
  | refl => exact hb
  | tail _ hstep ih => exact sockets_step ih hstep

end Book

/-! ### Runs -/

/-- No socket is copied or replaced, and fewer than 2^32 tasks were created. -/
def SocketsOnce (s : Io) (sys : Sys) : Prop :=
  s.kernel.nextPid.toNat < 2 ^ 32 ∧
    match sys with
    | .dup self oldfd => s.handleIs self oldfd (!isSocket ·) = true
    | .dup2 self oldfd newfd => s.replacesSocket self oldfd newfd = false
    | _ => True

instance (s : Io) (sys : Sys) : Decidable (SocketsOnce s sys) := by
  apply Sys.casesOn (motive := fun sys => Decidable (SocketsOnce s sys)) sys <;> intros <;>
    exact inferInstanceAs (Decidable (_ ∧ _))

theorem allows_of_socketsOnce {s : Io} {sys : Sys} (h : SocketsOnce s sys) :
    s.Allows (fun _ => True) (isSocket · = false) sys := by
  cases sys with
  | dup self oldfd =>
    intro i a hl
    have hk := Io.handleIs_lookup h.2 hl
    rwa [Bool.not_eq_true'] at hk
  | dup2 => exact fun i a j hl hj hne hin => Io.not_socket_of_replaces h.2 hl hj hne hin
  | fsize => exact fun _ _ _ => trivial
  | mmap => exact fun _ _ _ _ => ⟨trivial, trivial⟩
  | _ => trivial

/-- A descriptor that holds a socket handle names a socket that is in use and was created for
its table, and a socket in use is named by a descriptor. -/
structure SocketsValid (s : Io) : Prop where
  valid : ∀ p ∈ s.kernel.table, ∀ i, (s.kernel.procs p).ufdInuse i = true →
    isSocket ((s.kernel.procs p).ufdHandle i) = true →
      ∃ id, (s.kernel.procs p).ufdHandle i = ufdSockMake id ∧ (s.nsocks id).inUse = true ∧
        s.makers id = p
  named : ∀ id, (s.nsocks id).inUse = true → ∃ p ∈ s.kernel.table, ∃ i,
    (s.kernel.procs p).ufdInuse i = true ∧ (s.kernel.procs p).ufdHandle i = ufdSockMake id

theorem sockets_run (s : Io) (sys : Sys) (h : s.Sane ∧ s.book.Sockets)
    (hrule : SocketsOnce s sys) : (s.step sys).Sane ∧ (s.step sys).book.Sockets := by
  obtain ⟨hsane, hsteps⟩ := Io.does_step (fun _ _ => trivial) (fun _ hs => hs) hrule.1 sys
    (allows_of_socketsOnce hrule) h.1
  exact ⟨hsane, Book.sockets_steps hsteps h.2⟩

theorem sockets_boot (init : Nat) : (Io.boot init).Sane ∧ (Io.boot init).book.Sockets := by
  refine ⟨Io.sane_boot init, ?_⟩
  rw [Io.book_boot]
  refine ⟨?_, ?_, ?_⟩
  · intro p i h hi
    cases hi
  · intro p i q j id hi
    cases hi
  · intro id hid
    cases hid

theorem socketsValid_of_book {s : Io} (h : s.book.Sockets) : SocketsValid s := by
  refine ⟨?_, ?_⟩
  · intro p hp i hi hs
    exact h.valid p i _ (Io.slot_of_inuse hp hi) hs
  intro id hid
  obtain ⟨p, i, hi⟩ := h.named id hid
  have hslot : s.kernel.roster.slot p i = some (ufdSockMake id) := hi
  rw [Roster.slot] at hslot
  split at hslot
  case isTrue hin =>
    injection hslot with hh
    exact ⟨p, hin.1, i, hin.2, hh⟩
  case isFalse => cases hslot

/-- Over every run in which no socket is copied by `dup` or replaced by `dup2`, descriptors
and sockets in use agree. -/
theorem socket_descriptors_valid (init : Nat) (calls : List Sys)
    (h : Lib.Admissible Io.step SocketsOnce (Io.boot init) calls) :
    SocketsValid (Io.after init calls) :=
  socketsValid_of_book (Lib.run_invariant sockets_run (Io.boot init) calls (sockets_boot init) h).2

/-- Two processes with a socket each; the first one, which has a thread, exits. -/
def twoSockets : List Sys :=
  opensAll ++ [.process (.fork 48 128 144 160 fun _ => 0), .socket 144 sockDgram .good,
      .process (.clone 48 0x400000#64 0x600000#64 0 0x100#64 80 96), .socket 80 sockStream .good,
      .process (.exit 48 0)]

theorem socket_descriptors_valid_after_exit :
    (Io.after 16 twoSockets).nsocks.inUse ⟨1, by decide⟩ = true ∧
      SocketsValid (Io.after 16 twoSockets) :=
  ⟨by decide +kernel, socket_descriptors_valid 16 twoSockets (by decide +kernel)⟩

/-- A copied socket is closed under its second name: descriptor 3 still holds the handle of a
socket that is not in use. A socket replaced by a pipe end stays in use without a name. -/
theorem socket_descriptors_go_stale :
    let closed := Io.after 16 (opensAll ++ [.dup 48 3#32, .close 48 6#32])
    let replaced := Io.after 16 (opensAll ++ [.dup2 48 4#32 3#32])
    (closed.ufdLookup 48 3#32).map (·.2) = some 0x20000000#32 ∧
      closed.nsocks.inUse ⟨0, by decide⟩ = false ∧
      replaced.nsocks.inUse ⟨0, by decide⟩ = true ∧
      ∀ p ∈ replaced.kernel.table, ∀ i, (replaced.kernel.procs p).ufdInuse i = true →
        (replaced.kernel.procs p).ufdHandle i ≠ 0x20000000#32 := by
  decide +kernel

end Nyx.Descriptors
