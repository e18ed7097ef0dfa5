import Nyx.Paging.Ledger

/-! The account after an entry of a table was written: a link to a new table, a leaf taken
out, a leaf put in. -/
namespace Nyx.Paging
open Lib Function Machine Vpn Option

namespace Machine
variable {m : Machine} {dirs : Set Ptr} {pd t : Ptr} {p : List (BitVec 9)} {i : BitVec 9}
  {e : BitVec 64}

@[simp] theorem store_refs : (m.store t i e).refs = m.refs := rfl

@[simp] theorem store_pinned : (m.store t i e).pinned = m.pinned := rfl

theorem store_child_ne {lvl : Nat} {t' : Ptr} {i' : BitVec 9} (h : ¬ (t' = t ∧ i' = i)) :
    (m.store t i e).child lvl t' i' = m.child lvl t' i' := by
  rw [child, child, store_ne h]

end Machine

namespace Ledger
variable {m : Machine} {dirs : Set Ptr} {extra : Ptr → Nat} {pd t : Ptr} {p : List (BitVec 9)}
  {i : BitVec 9} {e : BitVec 64}

theorem table_place (h : Ledger m dirs extra) {pd' : Ptr} {p' : List (BitVec 9)} (hpd : pd ∈ dirs)
    (hpd' : pd' ∈ dirs) (hlen : p.length ≤ 3) (ht : m.frameAt pd p = some t)
    (ht' : m.frameAt pd' p' = some t) : pd' = pd ∧ p' = p := by
  have heq := h.unique t (pd, p) ⟨hpd, ht⟩ (pd', p') ⟨hpd', ht'⟩ hlen
  exact ⟨(Prod.mk.inj heq).1.symm, (Prod.mk.inj heq).2.symm⟩

/-- Writing an entry below which there is nothing before or after moves one path. -/
theorem frameAt_store (h : Ledger m dirs extra) (hpd : pd ∈ dirs) (hlen : p.length ≤ 3)
    (ht : m.frameAt pd p = some t)
    (hbefore : ∀ n j, m.child p.length t i = some n → m.child (p.length + 1) n j = none)
    (hafter : ∀ n j, (m.store t i e).child p.length t i = some n →
      (m.store t i e).child (p.length + 1) n j = none)
    {pd' : Ptr} (hpd' : pd' ∈ dirs) (path : List (BitVec 9)) :
    (m.store t i e).frameAt pd' path =
      if pd' = pd ∧ path = i :: p then (m.store t i e).child p.length t i
      else m.frameAt pd' path := by
  by_cases heq : pd' = pd
  · subst heq
    simp only [true_and]
    rw [frameAt, Trie.reach_setEdge ht, Nat.zero_add, frameAt]
    · intro up n j hn hne
      rw [store_child_ne]
      rintro ⟨rfl, rfl⟩
      exact hne ⟨(h.table_place hpd hpd' hlen ht hn).2, rfl⟩
    · simpa only [Nat.zero_add] using hbefore
    · simpa only [Nat.zero_add] using hafter
  · rw [if_neg (fun hx => heq hx.1), frameAt, frameAt]
    apply Trie.reach_congr
    intro up n j hn
    rw [store_child_ne]
    rintro ⟨rfl, rfl⟩
    exact heq (h.table_place hpd hpd' hlen ht hn).1

/-! ### Leaves -/

section Leaf
variable {v : Vpn} (h : Ledger m dirs extra) (hpd : pd ∈ dirs)
  (ht : m.frameAt pd v.table = some t) (e : BitVec 64)
include h hpd ht

variable {pd' : Ptr}

theorem frameAt_storeLeaf (hpd' : pd' ∈ dirs) (path : List (BitVec 9)) :
    (m.store t v.l e).frameAt pd' path =
      if pd' = pd ∧ path = v.path then if has e pagePresent then some (frameOf e) else none
      else m.frameAt pd' path := by
  have h3 : v.table.length = 3 := rfl
  rw [h.frameAt_store hpd (Nat.le_of_eq h3) ht (fun n j _ => child_deep (by omega) n j)
    (fun n j _ => child_deep (by omega) n j) hpd' path]
  rw [show v.path = v.l :: v.table from rfl]
  simp [child, h3]

theorem frameAt_storeLeaf_table (hpd' : pd' ∈ dirs) {path : List (BitVec 9)}
    (hlen : path.length ≤ 3) : (m.store t v.l e).frameAt pd' path = m.frameAt pd' path := by
  rw [h.frameAt_storeLeaf hpd ht e hpd', if_neg]
  rintro ⟨_, rfl⟩
  exact absurd hlen (by simp [path, Vpn.table])

theorem isTable_storeLeaf (f : Ptr) : (m.store t v.l e).IsTable dirs f ↔ m.IsTable dirs f := by
  constructor
  · rintro ⟨pd', hpd', path, hlen, hf⟩
    exact ⟨pd', hpd', path, hlen, by rwa [h.frameAt_storeLeaf_table hpd ht e hpd' hlen] at hf⟩
  · rintro ⟨pd', hpd', path, hlen, hf⟩
    exact ⟨pd', hpd', path, hlen, by rwa [h.frameAt_storeLeaf_table hpd ht e hpd' hlen]⟩

theorem leaf_storeLeaf (hpd' : pd' ∈ dirs) (v' : Vpn) :
    (m.store t v.l e).leaf pd' v' = if pd' = pd ∧ v' = v then e else m.leaf pd' v' := by
  have h3 : v'.table.length ≤ 3 := Nat.le_refl 3
  rw [leaf, h.frameAt_storeLeaf_table hpd ht e hpd' h3]
  cases ht' : m.frameAt pd' v'.table with
  | none =>
    have hne : ¬ (pd' = pd ∧ v' = v) := by
      rintro ⟨rfl, rfl⟩
      rw [ht] at ht'
      exact absurd ht' (by simp)
    rw [if_neg hne, leaf, ht']
  | some t' =>
    by_cases hv : pd' = pd ∧ v' = v
    · obtain ⟨rfl, rfl⟩ := hv
      obtain rfl : t = t' := some.inj (ht.symm.trans ht')
      rw [if_pos ⟨rfl, rfl⟩]
      exact store_self
    rw [if_neg hv, leaf_eq ht']
    apply store_ne
    rintro ⟨rfl, hl⟩
    obtain ⟨hpdeq, htable⟩ := h.table_place hpd hpd' v.table_length ht ht'
    apply hv
    simp only [Vpn.table, List.cons.injEq, and_true] at htable
    cases v
    cases v'
    simp_all

/-- The account after a leaf was written, from the counts. -/
theorem storeLeaf {extra' : Ptr → Nat} (he : has e pagePresent = true →
      IsFrame (frameOf e) ∧ has e pageUser = true ∧ ¬ m.IsTable dirs (frameOf e))
    (hvac : has e pagePresent = false → e = 0#64)
    (hcount : ∀ f, IsFrame f → m.pinned f = false →
      ((m.store t v.l e).holders dirs f).encard + extra' f = m.refs f) :
    Ledger (m.store t v.l e) dirs extra' where
  sound := h.sound
  dir := h.dir
  links pd' hpd' path t' i hlen ht' hi := by
    rw [h.frameAt_storeLeaf_table hpd ht e hpd' (by omega)] at ht'
    rw [store_ne]
    · exact h.links pd' hpd' path t' i hlen ht' hi
    · rintro ⟨rfl, _⟩
      obtain ⟨_, rfl⟩ := h.table_place hpd hpd' v.table_length ht ht'
      exact absurd hlen (by simp [Vpn.table])
  leaves pd' hpd' path t' i hlen ht' hp := by
    rw [h.frameAt_storeLeaf_table hpd ht e hpd' (by omega)] at ht'
    by_cases hslot : t' = t ∧ i = v.l
    · obtain ⟨rfl, rfl⟩ := hslot
      rw [store_self] at hp ⊢
      exact ⟨(he hp).1, (he hp).2.1⟩
    · rw [store_ne hslot] at hp ⊢
      exact h.leaves pd' hpd' path t' i hlen ht' hp
  vacant pd' hpd' path t' i hlen ht' hp := by
    rw [h.frameAt_storeLeaf_table hpd ht e hpd' (by omega)] at ht'
    by_cases hslot : t' = t ∧ i = v.l
    · obtain ⟨rfl, rfl⟩ := hslot
      rw [store_self] at hp ⊢
      exact hvac hp
    · rw [store_ne hslot] at hp ⊢
      exact h.vacant pd' hpd' path t' i hlen ht' hp
  unique f x hx y hy hlen := by
    obtain ⟨hxd, hxf⟩ := hx
    obtain ⟨hyd, hyf⟩ := hy
    rw [h.frameAt_storeLeaf_table hpd ht e hxd hlen] at hxf
    rw [h.frameAt_storeLeaf hpd ht e hyd] at hyf
    split at hyf
    · split at hyf
      case isTrue hpres =>
        obtain rfl : frameOf e = f := some.inj hyf
        exact absurd (isTable hxd hlen hxf) (he hpres).2.2
      · exact absurd hyf (by simp)
    · exact h.unique f x ⟨hxd, hxf⟩ y ⟨hyd, hyf⟩ hlen
  tables f hf := h.tables f ((h.isTable_storeLeaf hpd ht e f).mp hf)
  counted := hcount
  pinned := h.pinned

/-- Taking a leaf out: its reference is held by nobody for the moment. -/
theorem clear : Ledger (m.store t v.l 0#64) dirs
      (if has (m.word t v.l) pagePresent then bump extra (frameOf (m.word t v.l)) else extra) := by
  have hz : has 0#64 pagePresent = false := has_zero _
  have hold := m.frameAt_path pd v
  rw [leaf_eq ht] at hold
  have hholders : ∀ f, (m.store t v.l 0#64).holders dirs f = m.holders dirs f \ {(pd, v.path)} := by
    intro f
    ext ⟨pd', path⟩
    simp only [Machine.holders, Set.mem_ofPred_eq, Set.mem_sdiff, Set.mem_singleton_iff,
      Prod.mk.injEq]
    constructor
    · rintro ⟨hpd', hf⟩
      rw [h.frameAt_storeLeaf hpd ht 0#64 hpd', hz] at hf
      split at hf
      · exact absurd hf (by simp)
      · exact ⟨⟨hpd', hf⟩, by assumption⟩
    · rintro ⟨⟨hpd', hf⟩, hne⟩
      refine ⟨hpd', ?_⟩
      rw [h.frameAt_storeLeaf hpd ht 0#64 hpd', if_neg hne]
      exact hf
  refine h.storeLeaf hpd ht 0#64 (fun hp => absurd hp (by rw [hz]; decide)) (fun _ => rfl) ?_
  intro f hf hpin
  have hcount := h.counted f hf hpin
  rw [hholders]
  by_cases hmem : (pd, v.path) ∈ m.holders dirs f
  · -- the leaf held this frame
    obtain ⟨_, hat⟩ := hmem
    rw [hold] at hat
    obtain ⟨hpres, hfo⟩ := (ite_none_right_eq_some).mp hat
    rw [if_pos hpres, some.inj hfo, bump, update_self, Nat.cast_add, ← hcount,
      ← Set.encard_sdiff_singleton_add_one (a := (pd, v.path)) (s := m.holders dirs f)
        ⟨hpd, by rw [hold]; exact hat⟩]
    rw [Nat.cast_one, add_assoc, add_comm (1 : ℕ∞)]
  · have hne : has (m.word t v.l) pagePresent = true → f ≠ frameOf (m.word t v.l) := by
      intro hpres hfo
      exact hmem ⟨hpd, by rw [hold, if_pos hpres, hfo]⟩
    rw [Set.sdiff_singleton_eq_self hmem]
    split
    case isTrue hpres => rw [bump, update_of_ne (hne hpres), hcount]
    case isFalse => exact hcount

/-- Putting a leaf in: it takes over a reference held by nobody, or maps a pinned frame. -/
theorem place (hempty : has (m.word t v.l) pagePresent = false)
    (hpres : has e pagePresent = true) (huser : has e pageUser = true)
    (hframe : IsFrame (frameOf e)) (hex : m.pinned (frameOf e) = true ∨ extra (frameOf e) ≠ 0) :
    Ledger (m.store t v.l e) dirs (drop extra (frameOf e)) := by
  have hold := m.frameAt_path pd v
  rw [leaf_eq ht, hempty, if_neg Bool.false_ne_true] at hold
  have hholders : ∀ f, (m.store t v.l e).holders dirs f =
      if f = frameOf e then insert (pd, v.path) (m.holders dirs f) else m.holders dirs f := by
    intro f
    ext ⟨pd', path⟩
    have hmem : (pd', path) ∈ (m.store t v.l e).holders dirs f ↔
        pd' = pd ∧ path = v.path ∧ frameOf e = f ∨ (pd', path) ∈ m.holders dirs f := by
      simp only [Machine.holders, Set.mem_ofPred_eq]
      constructor
      · rintro ⟨hpd', hf⟩
        rw [h.frameAt_storeLeaf hpd ht e hpd', hpres] at hf
        split at hf
        case isTrue hx => exact .inl ⟨hx.1, hx.2, some.inj hf⟩
        case isFalse => exact .inr ⟨hpd', hf⟩
      · rintro (⟨rfl, rfl, rfl⟩ | ⟨hpd', hf⟩)
        · exact ⟨hpd, by rw [h.frameAt_storeLeaf hpd ht e hpd, if_pos ⟨rfl, rfl⟩, if_pos hpres]⟩
        refine ⟨hpd', ?_⟩
        rw [h.frameAt_storeLeaf hpd ht e hpd', if_neg]
        · exact hf
        · rintro ⟨rfl, rfl⟩
          rw [hold] at hf
          exact absurd hf (by simp)
    rw [hmem]
    split
    case isTrue he => simp [he]
    case isFalse he =>
      constructor
      · rintro (⟨_, _, rfl⟩ | hx)
        · exact absurd rfl he
        · exact hx
      · exact .inr
  refine h.storeLeaf hpd ht e (fun _ => ⟨hframe, huser, h.not_table hex⟩)
    (fun hp => absurd hpres (by rw [hp]; decide)) ?_
  intro f hf hpin
  have hcount := h.counted f hf hpin
  rw [hholders]
  by_cases he : f = frameOf e
  · have hnot : (pd, v.path) ∉ m.holders dirs f := by
      rintro ⟨_, hat⟩
      rw [hold] at hat
      exact absurd hat (by simp)
    have hpos : extra f ≠ 0 := he ▸ hex.resolve_left (by rw [← he, hpin]; decide)
    obtain ⟨n, hn⟩ := Nat.exists_eq_succ_of_ne_zero hpos
    rw [if_pos he, ← he, Set.encard_insert_of_notMem hnot, drop, update_self, hn,
      Nat.succ_sub_one, ← hcount, hn, Nat.succ_eq_add_one, Nat.cast_add, Nat.cast_one, add_assoc,
      add_comm (1 : ℕ∞)]
  · rw [if_neg he, drop, update_of_ne he]
    exact hcount

/-- Putting a leaf in place of what was there. -/
theorem replace (hpres : has e pagePresent = true) (huser : has e pageUser = true)
    (hframe : IsFrame (frameOf e))
    (hex : m.pinned (frameOf e) = true ∨
      (if has (m.word t v.l) pagePresent then bump extra (frameOf (m.word t v.l)) else extra)
        (frameOf e) ≠ 0) :
    Ledger (m.store t v.l e) dirs
      (drop (if has (m.word t v.l) pagePresent then bump extra (frameOf (m.word t v.l)) else extra)
        (frameOf e)) := by
  have hclear := h.clear hpd ht
  have ht' : (m.store t v.l 0#64).frameAt pd v.table = some t := by
    rw [h.frameAt_storeLeaf_table hpd ht 0#64 hpd v.table_length, ht]
  have hplace := hclear.place hpd ht' e (by rw [store_self, has_zero]) hpres huser hframe
    (by rwa [store_pinned])
  rwa [store_store] at hplace

/-- New flags for a mapped page. -/
theorem reflag (hold : has (m.word t v.l) pagePresent = true)
    (hsame : frameOf e = frameOf (m.word t v.l)) (hpres : has e pagePresent = true)
    (huser : has e pageUser = true) : Ledger (m.store t v.l e) dirs extra := by
  have hframe := (h.leaves pd hpd v.table t v.l rfl ht hold).1
  have hnew := h.replace hpd ht e hpres huser (hsame ▸ hframe)
    (.inr (by rw [if_pos hold, hsame, bump, update_self]; exact Nat.succ_ne_zero _))
  rwa [if_pos hold, hsame, drop_bump] at hnew

end Leaf

/-! ### Links -/

section New
variable (h : Ledger m dirs extra) {q : Ptr} (hq : IsFrame q) (hqrefs : m.refs q = 1)
  (hqex : extra q = 1) (hqpin : m.pinned q = false)
include h hq hqrefs hqex hqpin

/-- A frame with one reference, held outside the tables, is nowhere in them. -/
theorem holders_new : m.holders dirs q = ∅ := by
  have hcount := h.counted q hq hqpin
  rw [hqrefs, hqex] at hcount
  rw [← Set.encard_eq_zero]
  exact (ENat.add_left_injective_of_ne_top (ENat.natCast_ne_top 1)) (hcount.trans (zero_add _).symm)

theorem not_held (hpd : pd ∈ dirs) : m.frameAt pd p ≠ some q := by
  intro ht
  have hmem : (pd, p) ∈ m.holders dirs q := ⟨hpd, ht⟩
  rw [h.holders_new hq hqrefs hqex hqpin] at hmem
  exact hmem

omit hq in
/-- The frame gets a place in the tables, for the reference held outside them. -/
theorem counts_new {m' : Machine} {dirs' : Set Ptr} {place : Ptr × List (BitVec 9)}
    (hmem : ∀ f x, x ∈ m'.holders dirs' f ↔ if f = q then x = place else x ∈ m.holders dirs f)
    (hrefs : m'.refs = m.refs) (hpins : m'.pinned = m.pinned) :
    (∀ f, ∀ x ∈ m'.holders dirs' f, ∀ y ∈ m'.holders dirs' f, x.2.length ≤ 3 → x = y) ∧
      (∀ f, m'.IsTable dirs' f → m'.refs f = 1 ∧ m'.pinned f = false) ∧
      ∀ f, IsFrame f → m'.pinned f = false →
        (m'.holders dirs' f).encard + drop extra q f = m'.refs f := by
  rw [hrefs, hpins]
  refine ⟨fun f x hx y hy hlen => ?_, ?_, fun f hf hpin => ?_⟩
  · rw [hmem] at hx hy
    split at hx
    case isTrue hf => rw [hx, (if_pos hf).mp hy]
    case isFalse hf => exact h.unique f x hx y ((if_neg hf).mp hy) hlen
  · rintro f ⟨pd, hpd, path, hlen, hf⟩
    have hx := (hmem f (pd, path)).mp ⟨hpd, hf⟩
    split at hx
    case isTrue he => exact he ▸ ⟨hqrefs, hqpin⟩
    case isFalse => exact h.tables f ⟨pd, hx.1, path, hlen, hx.2⟩
  · by_cases he : f = q
    · have hset : m'.holders dirs' f = {place} := by
        ext x
        rw [hmem, if_pos he]
        rfl
      rw [hset, Set.encard_singleton, he, hqrefs, drop, update_self, hqex]
      rfl
    · have hset : m'.holders dirs' f = m.holders dirs f := by
        ext x
        rw [hmem, if_neg he]
      rw [hset, drop, update_of_ne he]
      exact h.counted f hf hpin

end New

section Link
variable (h : Ledger m dirs extra) (hpd : pd ∈ dirs) (hlen : p.length < 3)
  (ht : m.frameAt pd p = some t) (hi : p = [] → i ≠ higher) (hz : m.word t i = 0#64) {q : Ptr}
  (hq : IsFrame q) (hqrefs : m.refs q = 1) (hqex : extra q = 1) (hqpin : m.pinned q = false)
  (hqzero : ∀ j, m.word q j = 0#64)
include h hpd hlen ht hi hz hq hqrefs hqex hqpin hqzero

theorem frameAt_link {pd' : Ptr} (hpd' : pd' ∈ dirs) (path : List (BitVec 9)) :
    (m.store t i (link q)).frameAt pd' path =
      if pd' = pd ∧ path = i :: p then some q else m.frameAt pd' path := by
  have hne : q ≠ t := by
    rintro rfl
    exact h.not_held hq hqrefs hqex hqpin hpd ht
  have hchild : (m.store t i (link q)).child p.length t i = some q := by
    rw [child_eq_some, store_self]
    refine ⟨by omega, ?_, link_present hq, frameOf_link hq⟩
    rintro ⟨hl, hh⟩
    exact hi (List.length_eq_zero_iff.mp hl) hh
  rw [h.frameAt_store hpd (by omega) ht _ _ hpd' path, hchild]
  · intro n j hn
    rw [child_eq_some, hz, has_zero] at hn
    exact absurd hn.2.2.1 Bool.false_ne_true
  · intro n j hn
    rw [hchild, some.injEq] at hn
    subst hn
    rw [store_child_ne (fun hx => hne hx.1), child, hqzero, has_zero]
    simp

/-- A new, empty table maps nothing. -/
theorem leaf_link {pd' : Ptr} (hpd' : pd' ∈ dirs) (v : Vpn) :
    (m.store t i (link q)).leaf pd' v = m.leaf pd' v := by
  have hat := h.frameAt_link hpd hlen ht hi hz hq hqrefs hqex hqpin hqzero hpd' v.table
  have hne : q ≠ t := by
    rintro rfl
    exact h.not_held hq hqrefs hqex hqpin hpd ht
  rw [leaf, hat]
  by_cases hx : pd' = pd ∧ v.table = i :: p
  · have hnone : m.frameAt pd' v.table = none := by
      obtain ⟨rfl, hp⟩ := hx
      rw [hp, frameAt_cons ht, child, hz, has_zero]
      simp
    rw [if_pos hx, leaf, hnone]
    exact (store_ne fun hy => hne hy.1).trans (hqzero v.l)
  · rw [if_neg hx, leaf]
    cases ht' : m.frameAt pd' v.table with
    | none => rfl
    | some t' =>
      apply store_ne
      rintro ⟨rfl, _⟩
      obtain ⟨_, hp⟩ := h.table_place hpd hpd' (by omega) ht ht'
      rw [← hp] at hlen
      exact absurd hlen (by simp [Vpn.table])

/-- Linking a new, empty table. -/
theorem link : Ledger (m.store t i (link q)) dirs (drop extra q) := by
  have hat := fun {pd' : Ptr} (hpd' : pd' ∈ dirs) =>
    h.frameAt_link hpd hlen ht hi hz hq hqrefs hqex hqpin hqzero hpd'
  have hne : q ≠ t := by
    rintro rfl
    exact h.not_held hq hqrefs hqex hqpin hpd ht
  have hqword : ∀ j, (m.store t i (Paging.link q)).word q j = 0#64 := fun j =>
    (store_ne fun hx => hne hx.1).trans (hqzero j)
  have hmem : ∀ f x, x ∈ (m.store t i (Paging.link q)).holders dirs f ↔
      if f = q then x = (pd, i :: p) else x ∈ m.holders dirs f := by
    rintro f ⟨pd', path⟩
    simp only [Machine.holders, Set.mem_ofPred_eq]
    constructor
    · rintro ⟨hpd', hf⟩
      rw [hat hpd'] at hf
      by_cases hx : pd' = pd ∧ path = i :: p
      · rw [if_pos hx, some.injEq] at hf
        rw [if_pos hf.symm, hx.1, hx.2]
      rw [if_neg hx] at hf
      rw [if_neg]
      · exact ⟨hpd', hf⟩
      · rintro rfl
        exact h.not_held hq hqrefs hqex hqpin hpd' hf
    · intro hx
      by_cases hf : f = q
      · rw [if_pos hf, Prod.mk.injEq] at hx
        obtain ⟨rfl, rfl⟩ := hx
        exact ⟨hpd, by rw [hat hpd, if_pos ⟨rfl, rfl⟩, hf]⟩
      rw [if_neg hf] at hx
      refine ⟨hx.1, ?_⟩
      rw [hat hx.1, if_neg]
      · exact hx.2
      rintro ⟨rfl, rfl⟩
      have hnone := hx.2
      rw [frameAt_cons ht, child_eq_some, hz, has_zero] at hnone
      exact absurd hnone.2.2.1 Bool.false_ne_true
  obtain ⟨hunique, htables, hcounted⟩ := h.counts_new hqrefs hqex hqpin hmem rfl rfl
  constructor
  case sound => exact h.sound
  case dir => exact h.dir
  case links =>
    intro pd' hpd' path t' i' hlen' ht' hi'
    rw [hat hpd'] at ht'
    by_cases hx : pd' = pd ∧ path = i :: p
    · rw [if_pos hx, some.injEq] at ht'
      exact .inl (ht' ▸ hqword i')
    rw [if_neg hx] at ht'
    by_cases hs : t' = t ∧ i' = i
    · rw [hs.1, hs.2, store_self]
      exact .inr ⟨q, hq, rfl⟩
    rw [store_ne hs]
    exact h.links pd' hpd' path t' i' hlen' ht' hi'
  case leaves =>
    intro pd' hpd' path t' i' hlen' ht' hpres
    rw [hat hpd'] at ht'
    by_cases hx : pd' = pd ∧ path = i :: p
    · rw [if_pos hx, some.injEq] at ht'
      rw [← ht', hqword, has_zero] at hpres
      exact absurd hpres Bool.false_ne_true
    rw [if_neg hx] at ht'
    have hs : ¬ (t' = t ∧ i' = i) := by
      rintro ⟨rfl, _⟩
      obtain ⟨_, rfl⟩ := h.table_place hpd hpd' (by omega) ht ht'
      omega
    rw [store_ne hs] at hpres ⊢
    exact h.leaves pd' hpd' path t' i' hlen' ht' hpres
  case vacant =>
    intro pd' hpd' path t' i' hlen' ht' habs
    rw [hat hpd'] at ht'
    by_cases hx : pd' = pd ∧ path = i :: p
    · rw [if_pos hx, some.injEq] at ht'
      rw [← ht', hqword]
    rw [if_neg hx] at ht'
    have hs : ¬ (t' = t ∧ i' = i) := by
      rintro ⟨rfl, _⟩
      obtain ⟨_, rfl⟩ := h.table_place hpd hpd' (by omega) ht ht'
      omega
    rw [store_ne hs] at habs ⊢
    exact h.vacant pd' hpd' path t' i' hlen' ht' habs
  case unique => exact hunique
  case tables => exact htables
  case counted => exact hcounted
  case pinned => exact h.pinned

end Link

/-! ### Page directories -/

section Directory
variable (h : Ledger m dirs extra) {q : Ptr} (hq : IsFrame q) (hqrefs : m.refs q = 1)
  (hqex : extra q = 1) (hqpin : m.pinned q = false)
  (hqzero : ∀ j, j ≠ higher → m.word q j = 0#64)

include hqzero in
theorem frameAt_empty (path : List (BitVec 9)) :
    m.frameAt q path = if path = [] then some q else none := by
  induction path with
  | nil => rfl
  | cons i up ih =>
    rw [if_neg (by simp), frameAt, Trie.reach,
      show Trie.reach m.child 0 q up = m.frameAt q up from rfl, ih]
    split
    case isTrue hup =>
      subst hup
      rw [bind_some, child]
      by_cases hi : i = higher
      · simp [hi]
      · simp [hqzero i hi, has_zero]
    case isFalse => rfl

include h hq hqrefs hqex hqpin in
theorem not_dir : q ∉ dirs := fun hd =>
  h.not_held hq hqrefs hqex hqpin hd (p := []) frameAt_nil

include h hq hqrefs hqex hqpin hqzero

theorem directory : Ledger m (insert q dirs) (drop extra q) := by
  have hempty := frameAt_empty hqzero
  have hnew := h.not_dir hq hqrefs hqex hqpin
  have hmem : ∀ f x, x ∈ m.holders (insert q dirs) f ↔
      if f = q then x = (q, []) else x ∈ m.holders dirs f := by
    rintro f ⟨pd', path⟩
    simp only [Machine.holders, Set.mem_ofPred_eq, Set.mem_insert_iff]
    constructor
    · rintro ⟨rfl | hpd', hf⟩
      · rw [hempty] at hf
        obtain ⟨rfl, hf⟩ := ite_none_right_eq_some.mp hf
        rw [if_pos (some.inj hf).symm]
      · rw [if_neg]
        · exact ⟨hpd', hf⟩
        · rintro rfl
          exact h.not_held hq hqrefs hqex hqpin hpd' hf
    · intro hx
      split at hx
      case isTrue hf =>
        obtain ⟨rfl, rfl⟩ := Prod.mk.inj hx
        exact ⟨.inl rfl, by rw [frameAt_nil, hf]⟩
      case isFalse => exact ⟨.inr hx.1, hx.2⟩
  obtain ⟨hunique, htables, hcounted⟩ := h.counts_new hqrefs hqex hqpin hmem rfl rfl
  constructor
  case sound => exact h.sound
  case dir =>
    rintro pd' (rfl | hpd')
    · exact hq
    · exact h.dir pd' hpd'
  case links =>
    rintro pd' (rfl | hpd') path t' i' hlen' ht' hi'
    · rw [hempty] at ht'
      obtain ⟨rfl, ht'⟩ := ite_none_right_eq_some.mp ht'
      exact .inl (some.inj ht' ▸ hqzero i' (hi' rfl))
    · exact h.links pd' hpd' path t' i' hlen' ht' hi'
  case leaves =>
    rintro pd' (rfl | hpd') path t' i' hlen' ht' hpres
    · rw [hempty] at ht'
      obtain ⟨rfl, _⟩ := ite_none_right_eq_some.mp ht'
      exact absurd hlen' (by simp)
    · exact h.leaves pd' hpd' path t' i' hlen' ht' hpres
  case vacant =>
    rintro pd' (rfl | hpd') path t' i' hlen' ht' habs
    · rw [hempty] at ht'
      obtain ⟨rfl, _⟩ := ite_none_right_eq_some.mp ht'
      exact absurd hlen' (by simp)
    · exact h.vacant pd' hpd' path t' i' hlen' ht' habs
  case unique => exact hunique
  case tables => exact htables
  case counted => exact hcounted
  case pinned => exact h.pinned

end Directory

end Ledger

end Nyx.Paging
