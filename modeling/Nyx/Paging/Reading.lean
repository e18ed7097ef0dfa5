import Nyx.Paging.Translation

/-! What ring 3 sees of an address space.

All tables of an address space are open to ring 3 and writable, so the hardware decides by the leaf
entry alone (`Ledger.translate_eq`). -/
namespace Nyx.Paging
open Machine Vpn
open Process (userSpaceEnd)
open Lib

def verdict (write : Bool) (e : BitVec 64) : Translation :=
  if has e pagePresent then if allows write e then .page (frameOf e) else .denied else .absent

/-- The byte a process reads at an address, if the page is there and open to it. -/
def Machine.userByte (m : Machine) (pd : Ptr) (a : BitVec 64) : Option (BitVec 8) :=
  match m.translate pd a false with
  | .page p => some (m.byte p (pageOffset a))
  | _ => none

theorem Vpn.user_of_lt {a : BitVec 64} (h : a < userSpaceEnd) : (of a).User := by
  have hlt : a.toNat < 0x800000000000 := BitVec.lt_def.mp h
  intro hx
  have hidx := congrArg BitVec.toNat hx
  rw [show (of a).i = index a 39 from rfl, toNat_index] at hidx
  have hhigh : higher.toNat = 511 := by decide
  omega

namespace Ledger
variable {m : Machine} {d : Set Ptr} {x : Ptr → Nat} {pd t : Ptr} {p : List (BitVec 9)}
  {i : BitVec 9} {a : BitVec 64} {write : Bool}

/-- One level of the hardware's walk: on through a link, or an end. -/
theorem hardwareWalk_cons (h : Ledger m d x) (hpd : pd ∈ d) (hlen : p.length < 3)
    (ht : m.frameAt pd p = some t) (hi : p = [] → i ≠ higher) (rest : List (BitVec 9)) :
    m.hardwareWalk write (i :: rest) true t =
      match m.frameAt pd (i :: p) with
      | some q => m.hardwareWalk write rest true q
      | none => .absent := by
  rw [hardwareWalk, frameAt_cons ht, child]
  rcases h.links pd hpd p t i hlen ht hi with hz | ⟨q, hq, hl⟩
  · simp only [hz, has_zero, Bool.false_eq_true, and_false, if_false]
  have hallows : allows write (Paging.link q) = true := by
    rw [allows, has_link hq (by decide), has_link hq (by decide)]
    cases write <;> decide
  have hlevel : ¬ (p.length = 0 ∧ i = higher) := fun hx =>
    hi (List.length_eq_zero_iff.mp hx.1) hx.2
  have hlt : p.length < 4 := by omega
  simp only [hl, link_present hq, hallows, frameOf_link hq, hlevel, hlt, Bool.and_self, if_true,
    not_false_eq_true, and_self]

theorem translate_eq (h : Ledger m d x) (hpd : pd ∈ d) (ha : a < userSpaceEnd) :
    m.translate pd a write = verdict write (m.leaf pd (of a)) := by
  have habsent {q : List (BitVec 9)} (hnone : m.frameAt pd q = none)
      (hq : ∃ up, (of a).table = up ++ q) :
      Translation.absent = verdict write (m.leaf pd (of a)) := by
    obtain ⟨up, hup⟩ := hq
    rw [Machine.leaf, hup, frameAt_append_none hnone, verdict, has_zero]
    rfl
  have huser : index a 39 ≠ higher := user_of_lt ha
  rw [Machine.translate, h.hardwareWalk_cons hpd (by simp) frameAt_nil fun _ => huser]
  cases h1 : m.frameAt pd [index a 39] with
  | none => exact habsent h1 ⟨[_, _], rfl⟩
  | some t1 =>
    simp only
    rw [h.hardwareWalk_cons hpd (by simp) h1 (fun hx => by cases hx)]
    cases h2 : m.frameAt pd [index a 30, index a 39] with
    | none => exact habsent h2 ⟨[_], rfl⟩
    | some t2 =>
      simp only
      rw [h.hardwareWalk_cons hpd (by simp) h2 (fun hx => by cases hx)]
      cases h3 : m.frameAt pd [index a 21, index a 30, index a 39] with
      | none => exact habsent h3 ⟨[], rfl⟩
      | some t3 =>
        rw [leaf_eq (v := of a) h3]
        rfl

theorem userByte_eq (h : Ledger m d x) (hpd : pd ∈ d) (ha : a < userSpaceEnd) {e : BitVec 64}
    (hleaf : m.leaf pd (of a) = e) (hpres : has e pagePresent = true)
    (huser : has e pageUser = true) :
    m.userByte pd a = some (m.byte (frameOf e) (pageOffset a)) := by
  rw [userByte, h.translate_eq hpd ha, hleaf, verdict, if_pos hpres, if_pos]
  rw [allows, huser]
  rfl

end Ledger

end Nyx.Paging
