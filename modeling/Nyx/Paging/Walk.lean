import Nyx.Paging.Moves

/-! Walking to a leaf entry, with and without making the tables on the way. -/
namespace Nyx.Paging
open Lib Machine

/-! ### One level -/

theorem link_mask {q : Ptr} (hq : IsFrame q) : link q &&& ~~~0xFFF#64 = q := by
  have hmask : q &&& ~~~0xFFF#64 = q := by
    have hq' : q &&& pteAddrMask = q := hq.frameOf_eq
    rw [← hq', BitVec.and_assoc, show pteAddrMask &&& ~~~0xFFF#64 = pteAddrMask by decide]
  rw [link, BitVec.or_assoc, BitVec.or_assoc, BitVec.and_or_distrib_right, hmask,
    show (pagePresent ||| (pageWritable ||| pageUser)) &&& ~~~0xFFF#64 = 0#64 by decide,
    BitVec.or_zero]

/-- A walk to the place `path` of an address space that makes the tables on its way. -/
structure Walked (strict : Prop) (dirs : Set Ptr) (extra : Ptr → Nat) (m : Machine) (pd : Ptr)
    (path : List (BitVec 9)) (r : Machine × Option Ptr) : Prop where
  moves : Moves strict ⟨m, dirs, extra⟩ ⟨r.1, dirs, extra⟩
  grown : Grown dirs m r.1
  found : ∀ t, r.2 = some t → r.1.frameAt pd path = some t
  failed : r.2 = none → m.events.nulls < r.1.events.nulls

def Grows (strict : Prop) (dirs : Set Ptr) (extra : Ptr → Nat)
    (step : Machine → Ptr → BitVec 9 → Machine × Option Ptr) : Prop :=
  ∀ (m : Machine) (pd t : Ptr) (p : List (BitVec 9)) (i : BitVec 9), Ledger m dirs extra →
    pd ∈ dirs → p.length < 3 → m.frameAt pd p = some t → (p = [] → i ≠ higher) →
    Walked strict dirs extra m pd (i :: p) (step m t i)

section Levels
variable {strict : Prop} {dirs : Set Ptr} {extra : Ptr → Nat} {m : Machine} {pd t : Ptr}
  {p : List (BitVec 9)} {i : BitVec 9} (h : Ledger m dirs extra)

include h in
theorem allocTable_grows (hpd : pd ∈ dirs) (hlen : p.length < 3)
    (ht : m.frameAt pd p = some t) (hi : p = [] → i ≠ higher) (hz : m.word t i = 0#64)
    {r : Machine × Option Ptr}
    (hr : r = if m.allocPage.2 = 0#64 then (m.allocPage.1, none)
      else ((m.allocPage.1.fill m.allocPage.2 fun _ => 0#64).store t i (link m.allocPage.2),
        some m.allocPage.2)) :
    Walked strict dirs extra m pd (i :: p) r := by
  rcases allocPage_cases h.sound with ⟨hnull, href⟩ | htook
  · rw [if_pos hnull] at hr
    subst hr
    have hev : m.events.Le m.allocPage.1.events := href.events ▸ .null _ _
    refine ⟨.single (.quiet href.frames href.word hev), .of_refused dirs href,
      fun _ hx => absurd hx (by simp), fun _ => ?_⟩
    rw [href.events]
    exact Nat.lt_succ_self _
  · rw [if_neg htook.frame.ne_zero] at hr
    subst hr
    obtain ⟨_, hgrown, hat⟩ := h.newTable hpd hlen ht hi hz htook
    refine ⟨.single (.table hpd hlen ht hi hz htook), hgrown, ?_, by simp⟩
    intro t' ht'
    rw [← Option.some.inj ht']
    exact hat

theorem foundTable_grows (hlen : p.length < 3) (ht : m.frameAt pd p = some t)
    (hi : p = [] → i ≠ higher) {q : Ptr} (hq : IsFrame q) (hl : m.word t i = link q)
    {r : Machine × Option Ptr} (hr : r = (m, some q)) :
    Walked strict dirs extra m pd (i :: p) r := by
  subst hr
  refine ⟨.refl, .refl dirs m, ?_, by simp⟩
  intro t' ht'
  rw [← Option.some.inj ht', frameAt_cons ht, child_eq_some, hl]
  exact ⟨by omega, fun hx => hi (List.length_eq_zero_iff.mp hx.1) hx.2, link_present hq,
    frameOf_link hq⟩

theorem descend_link {q : Ptr} (hq : IsFrame q) (hl : m.word t i = link q) (create : Bool) :
    m.descend create t i = (m, some q) := by
  have hhuge : has (link q) pageHuge = false := by
    rw [has_link hq (by decide)]
    decide
  simp only [Machine.descend, hl, hhuge, link_present hq, link_mask hq, Bool.false_eq_true,
    if_false, if_true]

theorem descend_grows : Grows strict dirs extra (Machine.descend · true) := by
  intro m pd t p i h hpd hlen ht hi
  rcases h.links pd hpd p t i hlen ht hi with hz | ⟨q, hq, hl⟩
  · refine allocTable_grows h hpd hlen ht hi hz ?_
    simp only [Machine.descend, hz, has_zero, Bool.false_eq_true, if_false, if_true]
  · exact foundTable_grows hlen ht hi hq hl (descend_link hq hl true)

/-- `map_pml4` makes its tables as `pte_ptr` does, for a user mapping. -/
theorem mapLevel_grows {flags : BitVec 64} (hf : flags &&& pageUser = pageUser) :
    Grows strict dirs extra (Machine.mapLevel · flags) := by
  intro m pd t p i h hpd hlen ht hi
  rcases h.links pd hpd p t i hlen ht hi with hz | ⟨q, hq, hl⟩
  · refine allocTable_grows h hpd hlen ht hi hz ?_
    simp only [Machine.mapLevel, hz, has_zero, Bool.false_eq_true, if_false, hf]
    rfl
  have hno : has (link q) 0xFFF0000000000000#64 = false := by
    rw [has_link hq (by decide)]
    decide
  refine foundTable_grows hlen ht hi hq hl ?_
  simp only [Machine.mapLevel, hl, link_present hq, ptNext, hno, frameOf_link hq, if_true]
  rfl

end Levels

/-! ### The walk -/

def Vpn.User (v : Vpn) : Prop := v.i ≠ higher

section Walk
variable {strict : Prop} {dirs : Set Ptr} {extra : Ptr → Nat}

variable {step : Machine → Ptr → BitVec 9 → Machine × Option Ptr}

theorem walk_grows (hs : Grows strict dirs extra step) (is : List (BitVec 9)) :
    ∀ {m : Machine} {pd t : Ptr} {p : List (BitVec 9)}, Ledger m dirs extra → pd ∈ dirs →
      p.length + is.length ≤ 3 → m.frameAt pd p = some t →
      (p = [] → ∀ i ∈ is.head?, i ≠ higher) →
      Walked strict dirs extra m pd (is.reverse ++ p) (Machine.walk step is m t) := by
  induction is with
  | nil =>
    intro m pd t p h _ _ ht _
    refine ⟨.refl, .refl dirs m, ?_, by simp [Machine.walk]⟩
    intro t' ht'
    obtain rfl : t = t' := Option.some.inj ht'
    exact ht
  | cons i rest ih =>
    intro m pd t p h hpd hlen ht hi
    rw [List.length_cons] at hlen
    have hw := hs m pd t p i h hpd (by omega) ht (fun hp => hi hp i rfl)
    rw [Machine.walk, List.reverse_cons, List.append_assoc, List.singleton_append]
    cases hr : step m t i with
    | mk m' n =>
      rw [hr] at hw
      cases n with
      | none => exact ⟨hw.moves, hw.grown, by simp, fun _ => hw.failed rfl⟩
      | some next =>
        have hrest := ih (p := i :: p) (hw.moves.ledger h) hpd (by rw [List.length_cons]; omega)
          (hw.found next rfl) (fun hp => absurd hp (by simp))
        refine ⟨hw.moves.trans hrest.moves, hw.grown.trans hrest.grown, hrest.found, fun hn => ?_⟩
        exact lt_of_le_of_lt (hw.moves.events h).nulls (hrest.failed hn)

variable {m : Machine} {pd : Ptr} (h : Ledger m dirs extra) (hpd : pd ∈ dirs) {virt : BitVec 64}
  (hv : (Vpn.of virt).User)
include h hpd hv

/-- The walk both mapping calls and `pte_ptr` make. -/
theorem walkTo_grows (hs : Grows strict dirs extra step) :
    Walked strict dirs extra m pd (Vpn.of virt).table
      (Machine.walk step [index virt 39, index virt 30, index virt 21] m pd) := by
  refine walk_grows hs [index virt 39, index virt 30, index virt 21] h hpd (by simp) frameAt_nil ?_
  intro _ i hi
  obtain rfl : index virt 39 = i := Option.some.inj hi
  exact hv

end Walk

end Nyx.Paging
