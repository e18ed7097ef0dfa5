import Nyx.Lib.Trie
import Nyx.Paging.Pool

/-! Who holds which frame.

A frame is held by the places that point at it: a page directory of a process, an entry of
a table, a leaf. `frameAt` follows a path of indices from a page directory, the last index
first, and `Ledger` is the account: a frame's counter is the number of places that hold it and
of the references held elsewhere (`extra`: a frame taken and not yet mapped, or lost). A table
has one place and one reference. A pinned frame is not counted. -/
namespace Nyx.Paging
open Lib Function Machine

/-- A user page, by its four indices. -/
structure Vpn where
  i : BitVec 9
  j : BitVec 9
  k : BitVec 9
  l : BitVec 9
deriving DecidableEq, Repr

def Vpn.of (virt : BitVec 64) : Vpn := ⟨index virt 39, index virt 30, index virt 21, index virt 12⟩

variable (v : Vpn)

def Vpn.table : List (BitVec 9) := [v.k, v.j, v.i]

theorem Vpn.table_length : v.table.length ≤ 3 := Nat.le_refl 3

def Vpn.path : List (BitVec 9) := v.l :: v.table

/-- The index of the kernel's half. -/
def higher : BitVec 9 := BitVec.ofNat 9 pml4Higher

namespace Machine

variable (m : Machine)

/-- What an entry of a user table points at. There are four levels, and the kernel's half
of a page directory does not belong to the process. -/
def child (lvl : Nat) (t : Ptr) (i : BitVec 9) : Option Ptr :=
  if lvl < 4 ∧ ¬ (lvl = 0 ∧ i = higher) ∧ has (m.word t i) pagePresent = true then
    some (frameOf (m.word t i))
  else none

def frameAt (pd : Ptr) (path : List (BitVec 9)) : Option Ptr := Trie.reach m.child 0 pd path

/-- The leaf entry of a page; an entry of a table that does not exist is 0. -/
def leaf (pd : Ptr) (v : Vpn) : BitVec 64 :=
  match m.frameAt pd v.table with
  | some t => m.word t v.l
  | none => 0#64

/-- The places that hold a frame, among the address spaces `dirs`. -/
def holders (dirs : Set Ptr) (f : Ptr) : Set (Ptr × List (BitVec 9)) :=
  {x | x.1 ∈ dirs ∧ m.frameAt x.1 x.2 = some f}

def IsTable (dirs : Set Ptr) (f : Ptr) : Prop :=
  ∃ pd ∈ dirs, ∃ path, path.length ≤ 3 ∧ m.frameAt pd path = some f

end Machine

structure Ledger (m : Machine) (dirs : Set Ptr) (extra : Ptr → Nat) : Prop where
  sound : m.Sound
  dir : ∀ pd ∈ dirs, IsFrame pd
  links : ∀ pd ∈ dirs, ∀ path t i, path.length < 3 → m.frameAt pd path = some t →
    (path = [] → i ≠ higher) → m.word t i = 0#64 ∨ ∃ q, IsFrame q ∧ m.word t i = link q
  leaves : ∀ pd ∈ dirs, ∀ path t i, path.length = 3 → m.frameAt pd path = some t →
    has (m.word t i) pagePresent = true →
    IsFrame (frameOf (m.word t i)) ∧ has (m.word t i) pageUser = true
  vacant : ∀ pd ∈ dirs, ∀ path t i, path.length = 3 → m.frameAt pd path = some t →
    has (m.word t i) pagePresent = false → m.word t i = 0#64
  unique : ∀ f, ∀ x ∈ m.holders dirs f, ∀ y ∈ m.holders dirs f, x.2.length ≤ 3 → x = y
  tables : ∀ f, m.IsTable dirs f → m.refs f = 1 ∧ m.pinned f = false
  counted : ∀ f, IsFrame f → m.pinned f = false → (m.holders dirs f).encard + extra f = m.refs f
  pinned : ∀ f, IsFrame f → m.pinned f = true → m.refs f ≠ 0

/-- A reference more, or less, held outside the tables. -/
def bump (extra : Ptr → Nat) (f : Ptr) : Ptr → Nat := Function.update extra f (extra f + 1)

def drop (extra : Ptr → Nat) (f : Ptr) : Ptr → Nat := Function.update extra f (extra f - 1)

@[simp] theorem drop_bump (extra : Ptr → Nat) (f : Ptr) : drop (bump extra f) f = extra := by
  simp [drop, bump]

/-! ### Links -/

variable {q : Ptr}

theorem frameOf_link (hq : IsFrame q) : frameOf (link q) = q := by
  rw [link, BitVec.or_assoc, BitVec.or_assoc]
  exact frameOf_or hq (by decide)

theorem has_link (hq : IsFrame q) {flag : BitVec 64} (hf : flag &&& pteAddrMask = 0#64) :
    has (link q) flag = has (pagePresent ||| (pageWritable ||| pageUser)) flag := by
  rw [link, BitVec.or_assoc, BitVec.or_assoc]
  exact has_or hq hf

theorem link_present (hq : IsFrame q) : has (link q) pagePresent = true := by
  rw [has_link hq (by decide)]
  decide

theorem has_zero (flag : BitVec 64) : has 0#64 flag = false := by
  simp [has]

namespace Machine
variable {m m' : Machine} {pd : Ptr}

/-! ### Paths -/

@[simp] theorem frameAt_nil : m.frameAt pd [] = some pd := rfl

variable {i : BitVec 9} {up : List (BitVec 9)}

theorem frameAt_cons {t : Ptr} (h : m.frameAt pd up = some t) :
    m.frameAt pd (i :: up) = m.child up.length t i := by
  rw [frameAt, Trie.reach_cons h, Nat.zero_add]

theorem frameAt_cons_eq_some {f : Ptr} : m.frameAt pd (i :: up) = some f ↔
      ∃ t, m.frameAt pd up = some t ∧ m.child up.length t i = some f := by
  rw [frameAt, Trie.reach_cons_eq_some, Nat.zero_add]
  rfl

theorem child_eq_some {lvl : Nat} {t f : Ptr} : m.child lvl t i = some f ↔
      lvl < 4 ∧ ¬ (lvl = 0 ∧ i = higher) ∧ has (m.word t i) pagePresent = true ∧
        frameOf (m.word t i) = f := by
  rw [child, Option.ite_none_right_eq_some, Option.some.injEq, and_assoc, and_assoc]

theorem child_deep {lvl : Nat} (h : 4 ≤ lvl) (t : Ptr) (i : BitVec 9) : m.child lvl t i = none := by
  rw [child, if_neg (fun hc => absurd hc.1 (by omega))]

theorem length_of_frameAt {path : List (BitVec 9)} {f : Ptr} (h : m.frameAt pd path = some f) :
    path.length ≤ 4 := by
  cases path with
  | nil => simp
  | cons i up =>
    obtain ⟨t, _, hc⟩ := frameAt_cons_eq_some.mp h
    have := (child_eq_some.mp hc).1
    rw [List.length_cons]
    omega

/-- Below nothing there is nothing. -/
theorem frameAt_append_none {p : List (BitVec 9)} (h : m.frameAt pd p = none)
    (q : List (BitVec 9)) : m.frameAt pd (q ++ p) = none := by
  induction q with
  | nil => exact h
  | cons j q ih =>
    rw [frameAt] at ih
    rw [List.cons_append, frameAt, Trie.reach, ih]
    rfl

theorem frameAt_congr
    (h : ∀ path t, path.length ≤ 3 → m.frameAt pd path = some t → m'.word t = m.word t) :
    m'.frameAt pd = m.frameAt pd := by
  funext path
  apply Trie.reach_congr
  intro up t i ht
  by_cases hlen : up.length ≤ 3
  · rw [child, child, h up t hlen ht]
  · rw [child_deep (by omega), child_deep (by omega)]

theorem frameAt_path (m : Machine) (pd : Ptr) (v : Vpn) : m.frameAt pd v.path =
      if has (m.leaf pd v) pagePresent then some (frameOf (m.leaf pd v)) else none := by
  rw [leaf]
  cases ht : m.frameAt pd v.table with
  | none =>
    rw [Vpn.path, frameAt, Trie.reach, show Trie.reach m.child 0 pd v.table = none from ht]
    simp [has_zero]
  | some t =>
    rw [Vpn.path, frameAt_cons ht, child]
    have h3 : v.table.length = 3 := rfl
    simp [h3]

/-- The pages whose table a path of three indices leads to. -/
theorem leaf_eq {v : Vpn} {t : Ptr} (h : m.frameAt pd v.table = some t) :
    m.leaf pd v = m.word t v.l := by
  rw [leaf, h]

end Machine

namespace Ledger
variable {m m' : Machine} {dirs : Set Ptr} {extra extra' : Ptr → Nat} {pd f : Ptr}
  {path : List (BitVec 9)}

/-! ### What the account says -/

theorem frame (h : Ledger m dirs extra) (hpd : pd ∈ dirs) (hf : m.frameAt pd path = some f) :
    IsFrame f := by
  cases path with
  | nil =>
    obtain rfl : pd = f := Option.some.inj hf
    exact h.dir _ hpd
  | cons i up =>
    obtain ⟨t, ht, hc⟩ := frameAt_cons_eq_some.mp hf
    obtain ⟨hlvl, huser, hpres, rfl⟩ := child_eq_some.mp hc
    by_cases h3 : up.length = 3
    · exact (h.leaves pd hpd up t i h3 ht hpres).1
    rcases h.links pd hpd up t i (by omega) ht (fun hu hi => huser ⟨by simp [hu], hi⟩) with
      hz | ⟨q, hq, hl⟩
    · rw [hz, has_zero] at hpres
      exact absurd hpres Bool.false_ne_true
    rw [hl, frameOf_link hq]
    exact hq

theorem held (h : Ledger m dirs extra) (hpd : pd ∈ dirs) (hf : m.frameAt pd path = some f) :
    m.refs f ≠ 0 := by
  have hframe := h.frame hpd hf
  cases hpin : m.pinned f with
  | true => exact h.pinned f hframe hpin
  | false =>
    intro hz
    have hcount := h.counted f hframe hpin
    rw [hz, Nat.cast_zero, add_eq_zero] at hcount
    have hempty := Set.encard_eq_zero.mp hcount.1
    have hmem : (pd, path) ∈ m.holders dirs f := ⟨hpd, hf⟩
    rw [hempty] at hmem
    exact hmem

/-- A frame the allocator has free is nowhere. -/
theorem fresh (h : Ledger m dirs extra) (hf : m.refs f = 0) (hpd : pd ∈ dirs)
    (path : List (BitVec 9)) : m.frameAt pd path ≠ some f := fun hp => h.held hpd hp hf

theorem holders_fresh (h : Ledger m dirs extra) (hf : m.refs f = 0) : m.holders dirs f = ∅ := by
  ext x
  simp only [Machine.holders, Set.mem_ofPred_eq, Set.mem_empty_iff_false, iff_false, not_and]
  exact fun hpd => h.fresh hf hpd x.2

theorem isTable (hpd : pd ∈ dirs) (hlen : path.length ≤ 3) (hf : m.frameAt pd path = some f) :
    m.IsTable dirs f := ⟨pd, hpd, path, hlen, hf⟩

theorem extra_table (h : Ledger m dirs extra) (ht : m.IsTable dirs f) : extra f = 0 := by
  obtain ⟨pd, hpd, path, hlen, hf⟩ := ht
  obtain ⟨hone, hpin⟩ := h.tables f ⟨pd, hpd, path, hlen, hf⟩
  have hcount := h.counted f (h.frame hpd hf) hpin
  have hpos : 1 ≤ (m.holders dirs f).encard :=
    Set.one_le_encard_iff_nonempty.mpr ⟨(pd, path), hpd, hf⟩
  rw [hone] at hcount
  by_contra hne
  have hge : (1 : ℕ∞) ≤ extra f := by exact_mod_cast Nat.one_le_iff_ne_zero.mpr hne
  have htwo := add_le_add hpos hge
  rw [hcount] at htwo
  exact absurd htwo (by decide)

theorem not_table (h : Ledger m dirs extra) (hf : m.pinned f = true ∨ extra f ≠ 0) :
    ¬ m.IsTable dirs f := by
  intro ht
  rcases hf with hpin | hex
  · exact absurd (h.tables f ht).2 (by rw [hpin]; decide)
  · exact hex (h.extra_table ht)

theorem leaf_not_table (h : Ledger m dirs extra) {v : Vpn} (hpd : pd ∈ dirs)
    (hf : m.frameAt pd v.path = some f) : ¬ m.IsTable dirs f := by
  rintro ⟨pd', hpd', path', hlen, hf'⟩
  have heq := h.unique f (pd', path') ⟨hpd', hf'⟩ (pd, v.path) ⟨hpd, hf⟩ hlen
  rw [(Prod.mk.inj heq).2] at hlen
  exact absurd hlen (by simp [Vpn.path, Vpn.table])

/-! ### Changes that leave the tables alone -/

section
variable (hword : ∀ f, m.IsTable dirs f → m'.word f = m.word f)
include hword

theorem frameAt_eq (hpd : pd ∈ dirs) : m'.frameAt pd = m.frameAt pd :=
  frameAt_congr fun _ _ hlen ht => hword _ (isTable hpd hlen ht)

theorem leaf_eq_of_word (hpd : pd ∈ dirs) (v : Vpn) : m'.leaf pd v = m.leaf pd v := by
  rw [Machine.leaf, Machine.leaf, frameAt_eq hword hpd]
  cases ht : m.frameAt pd v.table with
  | none => rfl
  | some t => exact congrFun (hword t (isTable hpd (by simp [Vpn.table]) ht)) v.l

theorem holders_eq (f : Ptr) : m'.holders dirs f = m.holders dirs f := by
  ext x
  simp only [Machine.holders, Set.mem_ofPred_eq]
  exact and_congr_right fun hpd => by rw [frameAt_eq hword hpd]

theorem isTable_eq (f : Ptr) : m'.IsTable dirs f ↔ m.IsTable dirs f := by
  constructor
  · rintro ⟨pd, hpd, path, hlen, hf⟩
    exact ⟨pd, hpd, path, hlen, by rwa [frameAt_eq hword hpd] at hf⟩
  · rintro ⟨pd, hpd, path, hlen, hf⟩
    exact ⟨pd, hpd, path, hlen, by rwa [frameAt_eq hword hpd]⟩

end

/-- The account after a change of counters and of pages. -/
theorem reframe (h : Ledger m dirs extra) (hs : m'.Sound)
    (hword : ∀ f, m.IsTable dirs f → m'.word f = m.word f)
    (htab : ∀ f, m.IsTable dirs f → m'.refs f = m.refs f ∧ m'.pinned f = m.pinned f)
    (hcount : ∀ f, IsFrame f → m'.pinned f = false →
      (m.holders dirs f).encard + extra' f = m'.refs f)
    (hpin : ∀ f, IsFrame f → m'.pinned f = true → m'.refs f ≠ 0) : Ledger m' dirs extra' where
  sound := hs
  dir := h.dir
  links pd hpd path t i hlen ht hi := by
    rw [frameAt_eq hword hpd] at ht
    rw [hword t (isTable hpd (by omega) ht)]
    exact h.links pd hpd path t i hlen ht hi
  leaves pd hpd path t i hlen ht hp := by
    rw [frameAt_eq hword hpd] at ht
    rw [hword t (isTable hpd (by omega) ht)] at hp ⊢
    exact h.leaves pd hpd path t i hlen ht hp
  vacant pd hpd path t i hlen ht hp := by
    rw [frameAt_eq hword hpd] at ht
    rw [hword t (isTable hpd (by omega) ht)] at hp ⊢
    exact h.vacant pd hpd path t i hlen ht hp
  unique f := by
    rw [holders_eq hword]
    exact h.unique f
  tables f hf := by
    rw [isTable_eq hword] at hf
    rw [(htab f hf).1, (htab f hf).2]
    exact h.tables f hf
  counted f hf hp := by
    rw [holders_eq hword]
    exact hcount f hf hp
  pinned := hpin

/-- Nothing but the events and the allocator's call count changed. -/
theorem congr (h : Ledger m dirs extra) (hf : m'.frames = m.frames) (hw : m'.word = m.word) :
    Ledger m' dirs extra := by
  have hrefs : m'.refs = m.refs := by
    funext p
    rw [Machine.refs, refcount, hf, Machine.refs, refcount]
  have hpin : m'.pinned = m.pinned := by
    funext p
    rw [Machine.pinned, hf, Machine.pinned]
  refine h.reframe (by rw [Machine.Sound, hf]; exact h.sound) (fun f _ => by rw [hw])
    (fun f _ => by rw [hrefs, hpin]; exact ⟨rfl, rfl⟩) ?_ ?_
  · rw [hrefs, hpin]
    exact h.counted
  · rw [hrefs, hpin]
    exact h.pinned

/-- Without address spaces every reference is held elsewhere. -/
theorem nowhere (hs : m.Sound) (hpin : ∀ f, m.pinned f = false) : Ledger m ∅ m.refs where
  sound := hs
  dir _ hpd := absurd hpd (Set.notMem_empty _)
  links _ hpd := absurd hpd (Set.notMem_empty _)
  leaves _ hpd := absurd hpd (Set.notMem_empty _)
  vacant _ hpd := absurd hpd (Set.notMem_empty _)
  unique _ _ hx := absurd hx.1 (Set.notMem_empty _)
  tables := by
    rintro f ⟨pd, hpd, _⟩
    exact absurd hpd (Set.notMem_empty _)
  counted f _ _ := by
    have hnone : m.holders ∅ f = ∅ := by
      ext x
      exact ⟨fun hx => absurd hx.1 (Set.notMem_empty _), fun hx => absurd hx (Set.notMem_empty _)⟩
    rw [hnone, Set.encard_empty, zero_add]
  pinned f _ hp := absurd hp (by rw [hpin f]; exact Bool.false_ne_true)

section Pages
variable (h : Ledger m dirs extra)
include h

variable {p : Ptr}

theorem fill (hp : ¬ m.IsTable dirs p) (page : BitVec 9 → BitVec 64) :
    Ledger (m.fill p page) dirs extra := by
  have hword : ∀ f, m.IsTable dirs f → (m.fill p page).word f = m.word f := fun f hf =>
    fill_ne fun he : f = p => hp (he ▸ hf)
  exact h.reframe h.sound hword (fun _ _ => ⟨rfl, rfl⟩) h.counted h.pinned

theorem unpinned_of_fresh (hp : IsFrame p) (hr : m.refs p = 0) : m.pinned p = false := by
  cases hpin : m.pinned p with
  | false => rfl
  | true => exact absurd hr (h.pinned p hp hpin)

theorem extra_of_fresh (hp : IsFrame p) (hr : m.refs p = 0) : extra p = 0 := by
  have hcount := h.counted p hp (h.unpinned_of_fresh hp hr)
  rw [hr, Nat.cast_zero, add_eq_zero] at hcount
  exact_mod_cast hcount.2

theorem took (ht : m.Took m' p) : Ledger m' dirs (bump extra p) := by
  have hne : ∀ f, m.IsTable dirs f → f ≠ p := by
    rintro f hf rfl
    exact absurd ht.fresh (by rw [(h.tables f hf).1]; decide)
  have hfr : ∀ f, m.IsTable dirs f → IsFrame f := fun f ⟨_, hpd, _, _, hf⟩ => h.frame hpd hf
  refine h.reframe (ht.sound h.sound) (fun f _ => by rw [ht.word]) ?_ ?_ ?_
  · intro f hf
    rw [ht.refs f (hfr f hf), if_neg (hne f hf), ht.pinned]
    exact ⟨rfl, rfl⟩
  · intro f hf hpin
    rw [ht.pinned] at hpin
    rw [ht.refs f hf]
    by_cases he : f = p
    · subst he
      simp [bump, h.holders_fresh ht.fresh, h.extra_of_fresh hf ht.fresh]
    rw [if_neg he, bump, update_of_ne he]
    exact h.counted f hf hpin
  · intro f hf hpin
    rw [ht.pinned] at hpin
    rw [ht.refs f hf]
    split
    · decide
    · exact h.pinned f hf hpin

theorem incref (hp : IsFrame p) (hr : m.refs p ≠ 0) (ht : ¬ m.IsTable dirs p)
    (hroom : m.pinned p = true ∨ m.refs p < 255) : Ledger (m.pageIncref p) dirs (bump extra p) := by
  have hrefs := fun q => m.refs_pageIncref (q := q) h.sound hp hr
  have hne : ∀ f, m.IsTable dirs f → f ≠ p := fun f hf he => ht (he ▸ hf)
  have hfr : ∀ f, m.IsTable dirs f → IsFrame f := fun f ⟨_, hpd, _, _, hf⟩ => h.frame hpd hf
  refine h.reframe (sound_pageIncref h.sound hr) (fun f _ => rfl) ?_ ?_ ?_
  · intro f hf
    rw [hrefs f (hfr f hf), if_neg (fun hx => hne f hf hx.1), pageIncref_pinned]
    exact ⟨rfl, rfl⟩
  · intro f hf hpin
    rw [pageIncref_pinned] at hpin
    have hcount := h.counted f hf hpin
    rw [hrefs f hf]
    by_cases he : f = p
    · subst he
      have hlt : m.refs f < 255 := hroom.resolve_left (by rw [hpin]; decide)
      rw [if_pos ⟨rfl, hlt⟩, bump, update_self, Nat.cast_add, ← add_assoc, hcount]
      rfl
    · rw [if_neg (fun hx => he hx.1), bump, update_of_ne he]
      exact hcount
  · intro f hf hpin
    rw [pageIncref_pinned] at hpin
    rw [hrefs f hf]
    have := h.pinned f hf hpin
    split <;> omega

/-- Giving back a reference held outside the tables. -/
theorem free (hp : IsFrame p) (hr : m.refs p ≠ 0) (hex : m.pinned p = true ∨ extra p ≠ 0) :
    Ledger (m.freePage p) dirs (drop extra p) := by
  have ht := h.not_table hex
  have hne : ∀ f, m.IsTable dirs f → f ≠ p := fun f hf he => ht (he ▸ hf)
  have hfr : ∀ f, m.IsTable dirs f → IsFrame f := fun f ⟨_, hpd, _, _, hf⟩ => h.frame hpd hf
  refine h.reframe (sound_freePage h.sound hr) (fun f _ => rfl) ?_ ?_ ?_
  · intro f hf
    rw [refs_freePage_ne hp (hfr f hf) (hne f hf), freePage_pinned]
    exact ⟨rfl, rfl⟩
  · intro f hf hpin
    rw [freePage_pinned] at hpin
    have hcount := h.counted f hf hpin
    by_cases he : f = p
    · subst he
      have hpos : extra f ≠ 0 := hex.resolve_left (by rw [hpin]; decide)
      rw [refs_freePage_self h.sound hr hpin, drop, update_self]
      obtain ⟨e, he⟩ := Nat.exists_eq_succ_of_ne_zero hpos
      obtain ⟨r, hr'⟩ := Nat.exists_eq_succ_of_ne_zero hr
      rw [he, hr', Nat.succ_eq_add_one, Nat.cast_add, Nat.succ_eq_add_one, Nat.cast_add,
        ← add_assoc] at hcount
      rw [he, hr']
      exact (ENat.add_left_injective_of_ne_top (ENat.natCast_ne_top 1)) hcount
    · rw [refs_freePage_ne hp hf he, drop, update_of_ne he]
      exact hcount
  · intro f hf hpin
    rw [freePage_pinned] at hpin
    by_cases he : f = p
    · subst he
      exact refs_freePage_pinned h.sound hr hpin
    rw [refs_freePage_ne hp hf he]
    exact h.pinned f hf hpin

/-- Pinning takes a frame out of the count. -/
theorem pin (hp : IsFrame p) (hr : m.refs p ≠ 0) (ht : ¬ m.IsTable dirs p) :
    Ledger (m.pagePin p) dirs extra := by
  have hfr : ∀ f, m.IsTable dirs f → IsFrame f := fun f ⟨_, hpd, _, _, hf⟩ => h.frame hpd hf
  refine h.reframe (sound_pagePin h.sound) (fun f _ => rfl) ?_ ?_ ?_
  · intro f hf
    have hne : f ≠ p := fun he => ht (he ▸ hf)
    rw [pagePin_refs, pagePin_pinned hp (hfr f hf), decide_eq_false hne, Bool.or_false]
    exact ⟨rfl, rfl⟩
  · intro f hf hpin
    rw [pagePin_pinned hp hf, Bool.or_eq_false_iff] at hpin
    rw [pagePin_refs]
    exact h.counted f hf hpin.1
  · intro f hf hpin
    rw [pagePin_pinned hp hf, Bool.or_eq_true, decide_eq_true_eq] at hpin
    rw [pagePin_refs]
    rcases hpin with hpin | rfl
    · exact h.pinned f hf hpin
    · exact hr

end Pages

end Ledger

end Nyx.Paging
