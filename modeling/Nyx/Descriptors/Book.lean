import Nyx.Descriptors.Syscalls

/-! Who holds which handle.

A `Book` is what remains of the descriptor tables once tasks are only names: a handle or
nothing at each slot, the sockets in use, and the calls made so far. It changes in few ways
(`Step`): calls are made, a slot is filled, emptied with the release of its handle, or moved,
a socket is created into a slot, a child gets pipe ends. `ok` says which calls are allowed and
`may` which handles may be copied. -/
namespace Nyx.Descriptors
open Nyx.Process Nyx.Process.Kernel Function List

/-- A socket, as the system calls tell: a pipe is looked for first. -/
def isSocket (h : BitVec 32) : Bool := !isPipe h && isSock h

def Formed (h : BitVec 32) : Prop := isPipe h = true → isSock h = false

/-! ### Calls and the layers of handles -/

/-- The call that creates a handle, in the layer its tag names. -/
def makeCall (h : BitVec 32) : Call :=
  if isPipe h then .pipe .make h else if isSock h then .nsock .make h else .vfs .open h

def releaseCall (h : BitVec 32) : Call :=
  if isPipe h then .pipe .closeEnd h else if isSock h then .nsock .close h else .vfs .close h

namespace Call

/-- The call is made in the layer of its handle. -/
def Sound : Call → Prop
  | vfs _ h => isPipe h = false ∧ isSock h = false
  | pipe _ h => isPipe h = true
  | nsock _ h => isPipe h = false ∧ isSock h = true

instance (c : Call) : Decidable c.Sound := by
  cases c <;> simp only [Sound] <;> infer_instance

/-- A handle that is released was created in the same layer. -/
def Proper (log : List Call) : Call → Prop
  | vfs .close h => vfs .open h ∈ log
  | pipe .closeEnd h => pipe .make h ∈ log
  | nsock .close h => nsock .make h ∈ log
  | _ => True

theorem Proper.mono {log log' : List Call} {c : Call} (hsub : ∀ x ∈ log, x ∈ log')
    (h : c.Proper log) : c.Proper log' := by
  cases c with
  | vfs fn a => cases fn <;> first | exact hsub _ h | trivial
  | pipe fn a => cases fn <;> first | exact hsub _ h | trivial
  | nsock fn a => cases fn <;> first | exact hsub _ h | trivial

end Call

theorem releaseCall_sound (h : BitVec 32) : (releaseCall h).Sound := by
  simp only [releaseCall]
  split
  case isTrue hp => exact hp
  case isFalse hp =>
    have hp' : isPipe h = false := Bool.eq_false_iff.mpr hp
    split
    case isTrue hs => exact ⟨hp', hs⟩
    case isFalse hs => exact ⟨hp', Bool.eq_false_iff.mpr hs⟩

theorem releaseCall_proper {log : List Call} {h : BitVec 32} (hm : makeCall h ∈ log) :
    (releaseCall h).Proper log := by
  simp only [makeCall] at hm
  simp only [releaseCall]
  split
  case isTrue hp => rwa [if_pos hp] at hm
  case isFalse hp =>
    rw [if_neg hp] at hm
    split
    case isTrue hs => rwa [if_pos hs] at hm
    case isFalse hs => rwa [if_neg hs] at hm

/-! ### Handles of sockets -/

variable (id : Fin maxSockets)

theorem ufdSockId_make : ufdSockId (ufdSockMake id) = BitVec.ofNat 32 id.val := by
  revert id
  decide

theorem isSocket_make : isSocket (ufdSockMake id) = true := by
  revert id
  decide

theorem makeCall_sock : makeCall (ufdSockMake id) = .nsock .make (ufdSockMake id) := by
  revert id
  decide

theorem ufdSockMake_inj {id id' : Fin maxSockets} (h : ufdSockMake id = ufdSockMake id') :
    id = id' := by
  revert id id'
  decide

/-- The sockets in use once the handle `h` is released. -/
def freed (inUse : Fin maxSockets → Bool) (h : BitVec 32) (id : Fin maxSockets) : Bool :=
  inUse id && !(isSocket h && ufdSockId h == BitVec.ofNat 32 id.val)

theorem freed_of_not_socket {h : BitVec 32} (hs : isSocket h = false)
    (inUse : Fin maxSockets → Bool) : freed inUse h = inUse := by
  funext id
  rw [freed, hs, Bool.false_and, Bool.not_false, Bool.and_true]

theorem freed_sock (inUse : Fin maxSockets → Bool) (id id' : Fin maxSockets) :
    freed inUse (ufdSockMake id) id' = true ↔ inUse id' = true ∧ id' ≠ id := by
  have hid : BitVec.ofNat 32 id.val = BitVec.ofNat 32 id'.val ↔ id' = id := by
    revert id id'
    decide
  rw [freed, isSocket_make, Bool.true_and, ufdSockId_make, Bool.and_eq_true, Bool.not_eq_true',
    beq_eq_false_iff_ne, Ne, hid]

/-! ### The book -/

structure Book where
  slot : Nat → Fin procMaxFds → Option (BitVec 32)
  inUse : Fin maxSockets → Bool
  makers : Fin maxSockets → Nat
  calls : List Call

namespace Book
variable (b : Book)

def set (p : Nat) (i : Fin procMaxFds) (v : Option (BitVec 32)) : Book :=
  {b with slot := Function.update b.slot p (Function.update (b.slot p) i v)}

variable (p : Nat)

theorem set_slot (i : Fin procMaxFds) (v : Option (BitVec 32)) (q : Nat) (j : Fin procMaxFds) :
    (b.set p i v).slot q j = if q = p ∧ j = i then v else b.slot q j := by
  simp only [set]
  rcases eq_or_ne q p with rfl | hq
  · rw [update_self, update_apply]
    simp
  · rw [update_of_ne hq, if_neg fun h => hq h.1]

/-- The slots of `p`, all at once. -/
def give (p : Nat) (given : Fin procMaxFds → Option (BitVec 32)) : Book :=
  {b with slot := Function.update b.slot p given}

@[simp] theorem give_self (given : Fin procMaxFds → Option (BitVec 32)) :
    (b.give p given).slot p = given := update_self ..

theorem give_ne {p q : Nat} (hq : q ≠ p) (given : Fin procMaxFds → Option (BitVec 32)) :
    (b.give p given).slot q = b.slot q := update_of_ne hq ..

def create (p : Nat) (i : Fin procMaxFds) (id : Fin maxSockets) : Book :=
  {b.set p i (some (ufdSockMake id)) with inUse := Function.update b.inUse id true}

/-- A slot is emptied and its handle released. -/
def release (p : Nat) (i : Fin procMaxFds) (h : BitVec 32) : Book :=
  {b.set p i none with inUse := freed b.inUse h, calls := b.calls ++ [releaseCall h]}

inductive Step (ok : Call → Prop) (may : BitVec 32 → Prop) (b : Book) : Book → Prop
  | ask {new : List Call} (hok : ∀ c ∈ new, ok c) (hproper : ∀ c ∈ new, c.Proper (b.calls ++ new)) :
    Step ok may b {b with calls := b.calls ++ new}
  | record {id : Fin maxSockets} (hid : b.inUse id = false) (p : Nat) :
    Step ok may b {b with makers := Function.update b.makers id p}
  | put {p : Nat} {i : Fin procMaxFds} {h : BitVec 32} (hfree : b.slot p i = none)
      (hmade : makeCall h ∈ b.calls ∧ Formed h ∨ ∃ q j, b.slot q j = some h) (hmay : may h) :
    Step ok may b (b.set p i (some h))
  | socket {p : Nat} {i : Fin procMaxFds} {id : Fin maxSockets} (hfree : b.slot p i = none)
      (hid : b.inUse id = false) (hmake : Call.nsock .make (ufdSockMake id) ∈ b.calls)
      (hmaker : b.makers id = p) :
    Step ok may b (b.create p i id)
  | drop {p : Nat} {i : Fin procMaxFds} {h : BitVec 32} (hin : b.slot p i = some h) :
    Step ok may b (b.release p i h)
  | shift {p : Nat} {i j : Fin procMaxFds} {h : BitVec 32} (hin : b.slot p i = some h)
      (hfree : b.slot p j = none) : Step ok may b ((b.set p i none).set p j (some h))
  | share {p : Nat} (hfree : ∀ i, b.slot p i = none) {given : Fin procMaxFds → Option (BitVec 32)}
      (hgiven : ∀ i h, given i = some h → isPipe h = true ∧ ∃ q j, b.slot q j = some h) :
    Step ok may b (b.give p given)

def WellFormed (b : Book) : Prop := ∀ p i h, b.slot p i = some h → Formed h

theorem formed_make (id : Fin maxSockets) : Formed (ufdSockMake id) := by
  intro hp
  have hs := isSocket_make id
  rw [isSocket, hp] at hs
  cases hs

variable {b} {b' : Book} {ok : Call → Prop} {may : BitVec 32 → Prop}

theorem WellFormed.set (hb : b.WellFormed) {v : Option (BitVec 32)}
    (hv : ∀ h, v = some h → Formed h) (p : Nat) (i : Fin procMaxFds) :
    (b.set p i v).WellFormed := by
  intro q j h hq
  rw [set_slot] at hq
  split at hq
  · exact hv h hq
  · exact hb q j h hq

theorem wellFormed_step (hb : b.WellFormed) (hs : Step ok may b b') : b'.WellFormed := by
  have hnone (p : Nat) (i : Fin procMaxFds) : (b.set p i none).WellFormed := by
    refine hb.set (fun h hh => ?_) p i
    cases hh
  cases hs with
  | ask hok hproper => exact hb
  | record hid p => exact hb
  | put hfree hmade hmay =>
    refine hb.set (fun h hh => ?_) _ _
    injection hh with hh
    subst hh
    rcases hmade with hmade | ⟨q, j, hq⟩
    · exact hmade.2
    · exact hb q j _ hq
  | @socket p i id hfree hid hmake hmaker =>
    refine hb.set (fun h hh => ?_) p i
    injection hh with hh
    exact hh ▸ formed_make id
  | @drop p i h hin => exact hnone p i
  | @shift p i j h hin hfree =>
    refine (hnone p i).set (fun h' hh => ?_) p j
    injection hh with hh
    exact hh ▸ hb p i h hin
  | @share p hfree given hgiven =>
    intro q j h hq
    rcases eq_or_ne q p with rfl | hne
    · rw [give_self] at hq
      obtain ⟨_, q', j', hq'⟩ := hgiven j h hq
      exact hb q' j' h hq'
    · rw [give_ne b hne] at hq
      exact hb q j h hq

theorem wellFormed_steps (hs : Relation.ReflTransGen (Step ok may) b b') (hb : b.WellFormed) :
    b'.WellFormed := by
  induction hs with
  | refl => exact hb
  | tail _ hstep ih => exact wellFormed_step ih hstep

/-- The slots `l` of one table are released in turn. -/
theorem drops (p : Nat) (h : Fin procMaxFds → BitVec 32) (l : List (Fin procMaxFds)) :
    ∀ b : Book, l.Nodup → (∀ i ∈ l, b.slot p i = some (h i)) → Relation.ReflTransGen (Step ok may) b
        { b.give p fun i => if i ∈ l then none else b.slot p i with
          inUse := (l.map h).foldl freed b.inUse
          calls := b.calls ++ (l.map h).map releaseCall } := by
  induction l with
  | nil =>
    intro b _ _
    have hsame : b.slot = update b.slot p fun i => b.slot p i := (update_eq_self p b.slot).symm
    simp only [give, not_mem_nil, if_false, map_nil, foldl_nil, append_nil,
      ← hsame]
    exact .refl
  | cons i rest ih =>
    intro b hl hin
    rw [nodup_cons] at hl
    have hslot (j : Fin procMaxFds) (hj : j ∈ rest) : (b.release p i (h i)).slot p j = some (h j) := by
      have hji : ¬(p = p ∧ j = i) := fun he => hl.1 (he.2 ▸ hj)
      exact ((b.set_slot p i none p j).trans (if_neg hji)).trans (hin j (.tail i hj))
    have hfirst : Step ok may b (b.release p i (h i)) := .drop (hin i (.head rest))
    have hrest := ih (b.release p i (h i)) hl.2 hslot
    refine .head hfirst ?_
    have hend (q : Nat) : update (b.release p i (h i)).slot p
        (fun j => if j ∈ rest then none else (b.release p i (h i)).slot p j) q =
        update b.slot p (fun j => if j ∈ i :: rest then none else b.slot p j) q := by
      rcases eq_or_ne q p with rfl | hq
      · rw [update_self, update_self]
        funext j
        rw [show (b.release q i (h i)).slot q j = _ from b.set_slot q i none q j]
        by_cases hj : j ∈ rest
        · rw [if_pos hj, if_pos (mem_cons_of_mem i hj)]
        rw [if_neg hj]
        by_cases hji : j = i
        · rw [if_pos ⟨rfl, hji⟩, if_pos (hji ▸ .head rest)]
        have hout : j ∉ i :: rest := fun hm => (mem_cons.mp hm).elim hji hj
        rw [if_neg hout, if_neg]
        exact fun he => hji he.2
      · rw [update_of_ne hq, update_of_ne hq]
        exact update_of_ne hq ..
    simp only [give, funext hend] at hrest
    simp only [give, map_cons, foldl_cons]
    rw [show b.calls ++ releaseCall (h i) :: (rest.map h).map releaseCall =
      (b.release p i (h i)).calls ++ (rest.map h).map releaseCall from by
        simp only [release, append_assoc, singleton_append]]
    exact hrest

end Book
end Nyx.Descriptors
