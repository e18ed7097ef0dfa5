import Nyx.Paging.Mapping

/-! Page tables as a tree of tables, whatever their entries hold.

Here only the shape of one tree is assumed (`Tree`): no table is at two places of it, none is a
frame that the allocator could hand out, and the entries that lead to tables are `ok`. Making the
tables on the way to a page keeps the shape, leaves every leaf entry, and the new frames are in the
tree (`Extends`). -/
namespace Nyx.Paging
open Lib Machine Vpn List Option

namespace Machine
variable (half : BitVec 9 → Bool) (m : Machine)

/-- The table behind an entry. The first index is one of `half`; there are four levels, and the
entries of the last do not lead to tables. -/
def tableChild (lvl : Nat) (t : Ptr) (i : BitVec 9) : Option Ptr :=
  if lvl < 3 ∧ (lvl = 0 → half i = true) ∧ has (m.word t i) pagePresent = true ∧
      has (m.word t i) pageHuge = false then
    some (frameOf (m.word t i))
  else none

def tableAt (pml4 : Ptr) (path : List (BitVec 9)) : Option Ptr :=
  Trie.reach (m.tableChild half) 0 pml4 path

def entryAt (pml4 : Ptr) (v : Vpn) : BitVec 64 :=
  match m.tableAt half pml4 v.table with
  | some t => m.word t v.l
  | none => 0#64

end Machine

/-- Entries that lead on from a table at `path`. -/
def Leads (half : BitVec 9 → Bool) (path : List (BitVec 9)) (i : BitVec 9) : Prop :=
  path.length < 3 ∧ (path = [] → half i = true)

/-- The bits that `pt_next` panics on. -/
def reservedBits : BitVec 64 := 0xFFF0000000000000#64

structure Tree (half : BitVec 9 → Bool) (ok : BitVec 64 → Prop) (m : Machine) (pml4 : Ptr) :
    Prop where
  sound : m.Sound
  distinct : ∀ p q t, m.tableAt half pml4 p = some t → m.tableAt half pml4 q = some t → p = q
  fresh : ∀ p t, m.tableAt half pml4 p = some t → IsFrame t → m.refs t ≠ 0
  entries : ∀ p t i, m.tableAt half pml4 p = some t → Leads half p i →
    has (m.word t i) pagePresent = true → ok (m.word t i)

/-- `m'` is `m` with more tables, all of them in the tree. -/
structure Extends (half : BitVec 9 → Bool) (m m' : Machine) (pml4 : Ptr) : Prop where
  kept : ∀ p t, m.tableAt half pml4 p = some t → m'.tableAt half pml4 p = some t
  leaf : ∀ v, m'.entryAt half pml4 v = m.entryAt half pml4 v
  taken : ∀ f, IsFrame f → m.refs f = 0 → m'.refs f ≠ 0 → ∃ p, m'.tableAt half pml4 p = some f
  nulls : m.events.nulls ≤ m'.events.nulls

section
variable {half : BitVec 9 → Bool} {ok : BitVec 64 → Prop} {m m' m'' : Machine} {pml4 t q : Ptr}
  {p : List (BitVec 9)} {i : BitVec 9}

theorem Machine.tableAt_nil : m.tableAt half pml4 [] = some pml4 := rfl

theorem Machine.tableChild_eq_some {lvl : Nat} : m.tableChild half lvl t i = some q ↔
    lvl < 3 ∧ (lvl = 0 → half i = true) ∧ has (m.word t i) pagePresent = true ∧
      has (m.word t i) pageHuge = false ∧ frameOf (m.word t i) = q := by
  rw [tableChild]
  split
  case isTrue h =>
    simp only [some.injEq]
    tauto
  case isFalse h =>
    simp only [reduceCtorEq, false_iff]
    tauto

theorem Machine.entryAt_of {v : Vpn} (ht : m.tableAt half pml4 v.table = some t) :
    m.entryAt half pml4 v = m.word t v.l := by rw [entryAt, ht]

theorem Machine.tableAt_cons (ht : m.tableAt half pml4 p = some t) :
    m.tableAt half pml4 (i :: p) = m.tableChild half p.length t i := by
  rw [tableAt, Trie.reach_cons ht, Nat.zero_add]

theorem Machine.tableAt_append_none (h : m.tableAt half pml4 p = none) (q : List (BitVec 9)) :
    m.tableAt half pml4 (q ++ p) = none := by
  induction q with
  | nil => exact h
  | cons j q ih =>
    rw [cons_append, tableAt, Trie.reach, ← tableAt, ih]
    rfl

theorem Machine.tableAt_absent (ht : m.tableAt half pml4 p = some t)
    (habsent : has (m.word t i) pagePresent = false) : m.tableAt half pml4 (i :: p) = none := by
  rw [tableAt_cons ht, tableChild, if_neg fun hx => ?_]
  rw [habsent] at hx
  exact Bool.false_ne_true hx.2.2.1

/-- A page directory without entries is a tree. -/
theorem Tree.empty (hs : m.Sound) (hheld : IsFrame pml4 → m.refs pml4 ≠ 0)
    (hzero : ∀ i, m.word pml4 i = 0#64) : Tree half ok m pml4 := by
  have hroot : ∀ p t, m.tableAt half pml4 p = some t → p = [] ∧ t = pml4 := by
    intro p
    induction p with
    | nil => exact fun t ht => ⟨rfl, (some.inj ht).symm⟩
    | cons i up ih =>
      intro t ht
      obtain ⟨n, hn, hchild⟩ := Trie.reach_cons_eq_some.mp ht
      obtain ⟨-, rfl⟩ := ih n hn
      have hpresent := (tableChild_eq_some.mp hchild).2.2.1
      rw [hzero, has_zero] at hpresent
      exact absurd hpresent Bool.false_ne_true
  refine ⟨hs, fun p q t hp hq => ?_, fun p t hp => ?_, fun p t i hp _ hpresent => ?_⟩
  · rw [(hroot p t hp).1, (hroot q t hq).1]
  · rw [(hroot p t hp).2]
    exact hheld
  · rw [(hroot p t hp).2, hzero, has_zero] at hpresent
    exact absurd hpresent Bool.false_ne_true

/-! ### A new table -/

theorem Tree.took_ne {path : List (BitVec 9)} {n : Ptr} (h : Tree half ok m pml4)
    (hq : m.Took m' q) (hn : m.tableAt half pml4 path = some n) : n ≠ q := by
  rintro rfl
  exact h.fresh path n hn hq.frame hq.fresh

section NewTable
variable (h : Tree half ok m pml4) (ht : m.tableAt half pml4 p = some t) (hi : Leads half p i)
  (habsent : has (m.word t i) pagePresent = false) (hq : m.Took m' q)
include h ht hi habsent hq

theorem Tree.word_newTable {path : List (BitVec 9)} {n : Ptr} {j : BitVec 9}
    (hn : m.tableAt half pml4 path = some n) (hne : ¬ (path = p ∧ j = i)) :
    ((m'.fill q fun _ => 0#64).store t i (link q)).word n j = m.word n j := by
  have hnt : ¬ (n = t ∧ j = i) := by
    rintro ⟨rfl, rfl⟩
    exact hne ⟨h.distinct path p n hn ht, rfl⟩
  rw [store_ne hnt, fill_ne (h.took_ne hq hn), hq.word]

theorem Tree.tableAt_newTable (path : List (BitVec 9)) :
    ((m'.fill q fun _ => 0#64).store t i (link q)).tableAt half pml4 path =
      if path = i :: p then some q else m.tableAt half pml4 path := by
  have hlink : ((m'.fill q fun _ => 0#64).store t i (link q)).tableChild half (0 + p.length) t i =
      some q := by
    refine tableChild_eq_some.mpr ?_
    rw [store_self]
    refine ⟨by have := hi.1; omega, fun h0 => hi.2 ?_, link_present hq.frame, ?_,
      frameOf_link hq.frame⟩
    · exact length_eq_zero_iff.mp (by omega)
    · rw [has_link hq.frame (by decide)]
      decide
  rw [← hlink]
  refine Trie.reach_setEdge ht (fun up n j hn hne => ?_) (fun n j hn => ?_) (fun n j hn => ?_) path
  · rw [tableChild, tableChild, h.word_newTable ht hi habsent hq hn hne]
  · have hpresent := (tableChild_eq_some.mp hn).2.2.1
    rw [habsent] at hpresent
    exact absurd hpresent Bool.false_ne_true
  · obtain rfl : q = n := some.inj (hlink.symm.trans hn)
    have hne : ¬ (q = t ∧ j = i) := fun hx => h.took_ne hq ht hx.1.symm
    refine eq_none_iff_forall_ne_some.mpr fun c hc => ?_
    have hpresent := (tableChild_eq_some.mp hc).2.2.1
    rw [store_ne hne, fill_self, has_zero] at hpresent
    exact absurd hpresent Bool.false_ne_true

theorem Tree.newTable (hok : ok (link q)) :
    let m'' := (m'.fill q fun _ => 0#64).store t i (link q)
    Tree half ok m'' pml4 ∧ Extends half m m'' pml4 ∧ m''.tableAt half pml4 (i :: p) = some q := by
  intro m''
  have hat := h.tableAt_newTable ht hi habsent hq
  have hword {path : List (BitVec 9)} {n : Ptr} {j : BitVec 9}
      (hn : m.tableAt half pml4 path = some n) (hne : ¬ (path = p ∧ j = i)) :
      m''.word n j = m.word n j := h.word_newTable ht hi habsent hq hn hne
  have hqt : q ≠ t := (h.took_ne hq ht).symm
  have hzero (j : BitVec 9) : m''.word q j = 0#64 := by
    rw [store_ne fun hx => hqt hx.1, fill_self]
  have hnone : m.tableAt half pml4 (i :: p) = none := tableAt_absent ht habsent
  have hrefs {f : Ptr} (hf : IsFrame f) : m''.refs f = if f = q then 1 else m.refs f := hq.refs f hf
  refine ⟨⟨hq.sound h.sound, fun p₁ p₂ n h₁ h₂ => ?_, fun p₁ n h₁ hn => ?_,
    fun p₁ n j h₁ hj hpresent => ?_⟩, ⟨fun p₁ n h₁ => ?_, fun v => ?_, fun f hf h0 hne => ?_,
    Nat.le_of_eq (congrArg Events.nulls hq.events.symm)⟩,
    (hat _).trans (if_pos rfl)⟩
  · rw [hat] at h₁ h₂
    split at h₁ <;> split at h₂
    case isTrue.isTrue h1 h2 => rw [h1, h2]
    case isTrue.isFalse => exact absurd (some.inj h₁).symm (h.took_ne hq h₂)
    case isFalse.isTrue => exact absurd (some.inj h₂).symm (h.took_ne hq h₁)
    case isFalse.isFalse => exact h.distinct p₁ p₂ n h₁ h₂
  · rw [hat] at h₁
    rw [hrefs hn]
    split at h₁
    · rw [if_pos (some.inj h₁).symm]
      exact Nat.one_ne_zero
    rw [if_neg (h.took_ne hq h₁)]
    exact h.fresh p₁ n h₁ hn
  · rw [hat] at h₁
    split at h₁
    · obtain rfl := some.inj h₁
      rw [hzero, has_zero] at hpresent
      exact absurd hpresent Bool.false_ne_true
    by_cases hedge : p₁ = p ∧ j = i
    · obtain ⟨rfl, rfl⟩ := hedge
      obtain rfl : t = n := some.inj (ht.symm.trans h₁)
      rw [store_self]
      exact hok
    · rw [hword h₁ hedge] at hpresent ⊢
      exact h.entries p₁ n j h₁ hj hpresent
  · rw [hat, if_neg, h₁]
    rintro rfl
    rw [hnone] at h₁
    exact nomatch h₁
  · rw [entryAt, entryAt, hat]
    by_cases hpath : v.table = i :: p
    · rw [if_pos hpath, hpath, hnone]
      exact hzero v.l
    rw [if_neg hpath]
    cases hv : m.tableAt half pml4 v.table with
    | none => rfl
    | some n =>
      refine hword hv fun hx => ?_
      have hlen := hi.1
      rw [← hx.1] at hlen
      exact absurd hlen (Nat.lt_irrefl 3)
  · rw [hrefs hf] at hne
    split at hne
    case isTrue hfq => exact ⟨i :: p, by rw [hat, if_pos rfl, hfq]⟩
    case isFalse => exact absurd h0 hne

end NewTable

/-! ### The walk -/

theorem Extends.refl (half : BitVec 9 → Bool) (m : Machine) (pml4 : Ptr) : Extends half m m pml4 :=
  ⟨fun _ _ h => h, fun _ => rfl, fun _ _ h0 hne => absurd h0 hne, Nat.le_refl _⟩

theorem Extends.trans (h : Extends half m m' pml4) (h' : Extends half m' m'' pml4) :
    Extends half m m'' pml4 where
  kept p t ht := h'.kept p t (h.kept p t ht)
  leaf v := (h'.leaf v).trans (h.leaf v)
  taken f hf h0 hne := by
    by_cases hmid : m'.refs f = 0
    · exact h'.taken f hf hmid hne
    obtain ⟨p, hp⟩ := h.taken f hf h0 hmid
    exact ⟨p, h'.kept p f hp⟩
  nulls := h.nulls.trans h'.nulls

theorem Machine.tableAt_congr (hw : m'.word = m.word) (half : BitVec 9 → Bool) (pml4 : Ptr) :
    m'.tableAt half pml4 = m.tableAt half pml4 := by
  funext path
  refine Trie.reach_congr (fun up n i _ => ?_) path
  rw [tableChild, tableChild, hw]

theorem Machine.entryAt_congr (hw : m'.word = m.word) (half : BitVec 9 → Bool) (pml4 : Ptr) :
    m'.entryAt half pml4 = m.entryAt half pml4 := by
  funext v
  rw [entryAt, entryAt, tableAt_congr hw, hw]

/-- Neither the memory nor the allocator changes. -/
theorem Tree.quiet (h : Tree half ok m pml4) (hf : m'.frames = m.frames) (hw : m'.word = m.word)
    (hnulls : m.events.nulls ≤ m'.events.nulls) :
    Tree half ok m' pml4 ∧ Extends half m m' pml4 := by
  have hat := tableAt_congr hw half pml4
  have hrefs (f : Ptr) : m'.refs f = m.refs f := by
    rw [Machine.refs, refcount, hf, Machine.refs, refcount]
  refine ⟨⟨?_, ?_, ?_, ?_⟩, fun p t ht => by rwa [hat], fun v => ?_, fun f _ h0 hne => ?_,
    hnulls⟩
  · rw [Machine.Sound, hf]
    exact h.sound
  · rw [hat]
    exact h.distinct
  · intro p t ht hframe
    rw [hat] at ht
    rw [hrefs]
    exact h.fresh p t ht hframe
  · rw [hat, hw]
    exact h.entries
  · rw [entryAt_congr hw]
  · rw [hrefs] at hne
    exact absurd h0 hne

/-- A walk to the table at `path`. It ends early if an allocation fails, and for no other reason
if it is `sure`. -/
structure Comes (half : BitVec 9 → Bool) (ok : BitVec 64 → Prop) (sure : Prop) (m : Machine)
    (pml4 : Ptr) (path : List (BitVec 9)) (r : Machine × Option Ptr) : Prop where
  tree : Tree half ok r.1 pml4
  grows : Extends half m r.1 pml4
  found : r.1.tableAt half pml4 path = r.2
  failed : sure → r.2 = none → m.events.nulls < r.1.events.nulls
  calm : (∀ e, ok e → has e reservedBits = false) → r.1.events.panics = m.events.panics

variable {sure : Prop}

/-- One level of a walk that makes tables. -/
theorem Tree.allocTable (h : Tree half ok m pml4) (ht : m.tableAt half pml4 p = some t)
    (hi : Leads half p i) (habsent : has (m.word t i) pagePresent = false)
    (hok : ∀ q, IsFrame q → ok (link q)) {r : Machine × Option Ptr}
    (hr : r = if m.allocPage.2 = 0#64 then (m.allocPage.1, none)
      else ((m.allocPage.1.fill m.allocPage.2 fun _ => 0#64).store t i (link m.allocPage.2),
        some m.allocPage.2)) :
    Comes half ok sure m pml4 (i :: p) r := by
  rcases allocPage_cases h.sound with ⟨hnull, href⟩ | htook
  · rw [if_pos hnull] at hr
    subst hr
    have hlt : m.events.nulls < m.allocPage.1.events.nulls := by
      rw [href.events]
      exact Nat.lt_succ_self _
    obtain ⟨htree, hext⟩ := h.quiet href.frames href.word hlt.le
    refine ⟨htree, hext, ?_, fun _ _ => hlt, fun _ => by rw [href.events]; rfl⟩
    rw [tableAt_congr href.word, tableAt_absent ht habsent]
  · rw [if_neg htook.frame.ne_zero] at hr
    subst hr
    obtain ⟨htree, hext, hat⟩ := h.newTable ht hi habsent htook (hok _ htook.frame)
    exact ⟨htree, hext, hat, (fun _ hx => by cases hx), fun _ => congrArg Events.panics htook.events⟩

theorem Machine.tableAt_follow (ht : m.tableAt half pml4 p = some t)
    (hi : Leads half p i) (hpresent : has (m.word t i) pagePresent = true)
    (hsmall : has (m.word t i) pageHuge = false) :
    m.tableAt half pml4 (i :: p) = some (frameOf (m.word t i)) := by
  rw [tableAt_cons ht, tableChild_eq_some]
  exact ⟨hi.1, fun h0 => hi.2 (length_eq_zero_iff.mp h0), hpresent, hsmall, rfl⟩

theorem Tree.walk {step : Machine → Ptr → BitVec 9 → Machine × Option Ptr}
    (hstep : ∀ (m : Machine) (t : Ptr) (p : List (BitVec 9)) (i : BitVec 9), Tree half ok m pml4 →
      m.tableAt half pml4 p = some t → Leads half p i →
      Comes half ok sure m pml4 (i :: p) (step m t i)) (is : List (BitVec 9)) :
    ∀ {m : Machine} {t : Ptr} {p : List (BitVec 9)}, Tree half ok m pml4 →
      p.length + is.length ≤ 3 → m.tableAt half pml4 p = some t →
      (p = [] → ∀ i ∈ is.head?, half i = true) →
      Comes half ok sure m pml4 (is.reverse ++ p) (Machine.walk step is m t) := by
  induction is with
  | nil =>
    intro m t p h _ ht _
    exact ⟨h, .refl half m pml4, ht, (fun _ hx => by cases hx), fun _ => rfl⟩
  | cons i rest ih =>
    intro m t p h hlen ht hi
    rw [length_cons] at hlen
    have hone := hstep m t p i h ht ⟨by omega, fun hp => hi hp i rfl⟩
    rw [Machine.walk, reverse_cons, append_assoc, singleton_append]
    cases hr : step m t i with
    | mk m' n =>
      rw [hr] at hone
      cases n with
      | none =>
        exact ⟨hone.tree, hone.grows, tableAt_append_none hone.found _,
          (fun hs _ => hone.failed hs rfl), hone.calm⟩
      | some next =>
        have hrest := ih hone.tree (by rw [length_cons]; omega) hone.found fun hp => by cases hp
        refine ⟨hrest.tree, hone.grows.trans hrest.grows, hrest.found, fun hs hn => ?_,
          fun hcalm => (hrest.calm hcalm).trans (hone.calm hcalm)⟩
        exact Nat.lt_of_le_of_lt hone.grows.nulls (hrest.failed hs hn)

/-! ### The two walkers -/

/-- `map_pml4` follows any present entry, so there must be no huge ones. -/
theorem Tree.mapLevel {flags : BitVec 64} (hf : flags &&& pageUser = pageUser)
    (hok : ∀ q, IsFrame q → ok (link q)) (hsmall : ∀ e, ok e → has e pageHuge = false)
    (h : Tree half ok m pml4) (ht : m.tableAt half pml4 p = some t) (hi : Leads half p i) :
    Comes half ok sure m pml4 (i :: p) (m.mapLevel flags t i) := by
  cases hpresent : has (m.word t i) pagePresent with
  | false =>
    refine h.allocTable ht hi hpresent hok ?_
    simp only [Machine.mapLevel, hpresent, Bool.false_eq_true, if_false, hf]
    rfl
  | true =>
    have hnext := tableAt_follow ht hi hpresent (hsmall _ (h.entries p t i ht hi hpresent))
    obtain ⟨htree, hext⟩ : Tree half ok (m.ptNext (m.word t i)).1 pml4 ∧ _ :=
      h.quiet rfl rfl (Nat.le_refl _)
    have hlevel : m.mapLevel flags t i =
        ((m.ptNext (m.word t i)).1, some (frameOf (m.word t i))) := by
      simp only [Machine.mapLevel, hpresent, if_true]
      rfl
    rw [hlevel]
    refine ⟨htree, hext, hext.kept _ _ hnext, (fun _ hx => by cases hx), fun hcalm => ?_⟩
    have hbits := hcalm _ (h.entries p t i ht hi hpresent)
    rw [reservedBits] at hbits
    simp only [Machine.ptNext, hbits]
    rfl

/-- An entry whose bits above the flags are the address of its table, as `pte_ptr` reads them. -/
def CleanTable (e : BitVec 64) : Prop := has e pageHuge = false → e &&& ~~~0xFFF#64 = frameOf e

/-- `pte_ptr` stops at a huge entry, and without `create` where there is no table. -/
theorem Tree.descend (create : Bool) (hok : ∀ q, IsFrame q → ok (link q))
    (hclean : ∀ e, ok e → CleanTable e) (h : Tree half ok m pml4)
    (ht : m.tableAt half pml4 p = some t) (hi : Leads half p i) :
    Comes half ok False m pml4 (i :: p) (m.descend create t i) := by
  have hstop (hnone : m.tableAt half pml4 (i :: p) = none) :
      Comes half ok False m pml4 (i :: p) (m, none) :=
    ⟨h, .refl half m pml4, hnone, False.elim, fun _ => rfl⟩
  unfold Machine.descend
  dsimp only
  split_ifs with hhuge hpresent hcreate hnull
  · refine hstop ?_
    rw [tableAt_cons ht, tableChild, if_neg fun hx => ?_]
    rw [hhuge] at hx
    exact Bool.false_ne_true hx.2.2.2.symm
  · have hsmall : has (m.word t i) pageHuge = false := by simpa using hhuge
    refine ⟨h, .refl half m pml4, ?_, False.elim, fun _ => rfl⟩
    rw [hclean _ (h.entries p t i ht hi hpresent) hsmall]
    exact tableAt_follow ht hi hpresent hsmall
  · refine h.allocTable ht hi (by simpa using hpresent) hok ?_
    rw [if_pos hnull]
  · refine h.allocTable ht hi (by simpa using hpresent) hok ?_
    rw [if_neg hnull]
  · exact hstop (tableAt_absent ht (by simpa using hpresent))

/-- The way to a page's table, from the page directory. -/
theorem Tree.walkTo {step : Machine → Ptr → BitVec 9 → Machine × Option Ptr} {virt : BitVec 64}
    (hstep : ∀ (m : Machine) (t : Ptr) (p : List (BitVec 9)) (i : BitVec 9), Tree half ok m pml4 →
      m.tableAt half pml4 p = some t → Leads half p i →
      Comes half ok sure m pml4 (i :: p) (step m t i)) (h : Tree half ok m pml4)
    (hv : half (index virt 39) = true) :
    Comes half ok sure m pml4 (of virt).table
      (Machine.walk step [index virt 39, index virt 30, index virt 21] m pml4) := by
  refine Tree.walk hstep [index virt 39, index virt 30, index virt 21] h (by simp)
    tableAt_nil fun _ i hi => ?_
  obtain rfl : index virt 39 = i := some.inj hi
  exact hv

/-! ### Leaf entries -/

section StoreLeaf
variable {v : Vpn} (h : Tree half ok m pml4) (ht : m.tableAt half pml4 v.table = some t)
  (e : BitVec 64)
include h ht

theorem Tree.tableAt_storeLeaf : (m.store t v.l e).tableAt half pml4 = m.tableAt half pml4 := by
  funext path
  refine Trie.reach_congr (fun up n i hn => ?_) path
  rw [tableChild, tableChild]
  by_cases hlen : up.length < 3
  · have hne : n ≠ t := by
      rintro rfl
      rw [h.distinct up v.table n hn ht] at hlen
      exact absurd hlen (Nat.lt_irrefl 3)
    rw [store_page_ne hne]
  · rw [if_neg fun hx => hlen (by omega), if_neg fun hx => hlen (by omega)]

theorem Tree.entryAt_storeLeaf (v' : Vpn) : (m.store t v.l e).entryAt half pml4 v' =
    if v' = v then e else m.entryAt half pml4 v' := by
  rw [entryAt, h.tableAt_storeLeaf ht]
  by_cases hv : v' = v
  · subst hv
    rw [ht, if_pos rfl]
    exact store_self
  rw [if_neg hv, entryAt]
  cases hn : m.tableAt half pml4 v'.table with
  | none => rfl
  | some n =>
    refine store_ne ?_
    rintro ⟨rfl, hl⟩
    have htable : v'.table = v.table := h.distinct _ _ _ hn ht
    simp only [Vpn.table, cons.injEq, and_true] at htable
    exact hv (by cases v'; cases v; simp_all)

theorem Tree.storeLeaf : Tree half ok (m.store t v.l e) pml4 := by
  have hat := h.tableAt_storeLeaf ht e
  refine ⟨h.sound, by rw [hat]; exact h.distinct, by rw [hat]; exact h.fresh, ?_⟩
  intro p n i hn hi hpresent
  rw [hat] at hn
  have hne : n ≠ t := by
    rintro rfl
    have hlen := hi.1
    rw [h.distinct p v.table n hn ht] at hlen
    exact absurd hlen (Nat.lt_irrefl 3)
  rw [store_page_ne hne] at hpresent ⊢
  exact h.entries p n i hn hi hpresent

end StoreLeaf

/-- A frame taken for a page, and what is put into it, is nothing to the tables. -/
theorem Tree.takePage (h : Tree half ok m pml4) (hq : m.Took m' q) (page : BitVec 9 → BitVec 64) :
    Tree half ok (m'.fill q page) pml4 ∧ (m'.fill q page).tableAt half pml4 = m.tableAt half pml4 ∧
      ∀ v, (m'.fill q page).entryAt half pml4 v = m.entryAt half pml4 v := by
  have hword {path : List (BitVec 9)} {n : Ptr} (hn : m.tableAt half pml4 path = some n) :
      (m'.fill q page).word n = m.word n := by
    rw [fill_ne (h.took_ne hq hn), hq.word]
  have hat : (m'.fill q page).tableAt half pml4 = m.tableAt half pml4 := by
    funext path
    refine Trie.reach_congr (fun up n i hn => ?_) path
    rw [tableChild, tableChild, hword hn]
  refine ⟨⟨hq.sound h.sound, ?_, fun p t ht hf => ?_, fun p t i ht hi hpresent => ?_⟩, hat, ?_⟩
  · rw [hat]
    exact h.distinct
  · rw [hat] at ht
    rw [show (m'.fill q page).refs t = m'.refs t from rfl, hq.refs t hf, if_neg (h.took_ne hq ht)]
    exact h.fresh p t ht hf
  · rw [hat] at ht
    rw [hword ht] at hpresent ⊢
    exact h.entries p t i ht hi hpresent
  · intro v
    rw [entryAt, entryAt, hat]
    cases hn : m.tableAt half pml4 v.table with
    | none => rfl
    | some n => exact congrFun (hword hn) v.l

/-! ### The two calls -/

section MapPml4
variable (h : Tree half ok m pml4) (phys virt flags : BitVec 64) (hf : flags &&& pageUser = pageUser)
  (hok : ∀ q, IsFrame q → ok (link q)) (hsmall : ∀ e, ok e → has e pageHuge = false)
  (hv : half (index virt 39) = true)
include h hf hok hsmall hv

theorem Tree.walk_mapLevel : Comes half ok True m pml4 (of virt).table
    (Machine.walk (Machine.mapLevel · flags) [index virt 39, index virt 30, index virt 21] m pml4) :=
  Tree.walkTo (fun _ _ _ _ h ht hi => h.mapLevel hf hok hsmall ht hi) h hv

/-- `map_pml4` sets one leaf entry, or gives up when a table cannot be allocated. -/
theorem Tree.mapPml4 : Tree half ok (m.mapPml4 pml4 phys virt flags) pml4 ∧
    (m.events.nulls < (m.mapPml4 pml4 phys virt flags).events.nulls ∧
        (m.mapPml4 pml4 phys virt flags).tableAt half pml4 (of virt).table = none ∧
        (Machine.walk (Machine.mapLevel · flags) [index virt 39, index virt 30, index virt 21] m
          pml4).2 = none ∨
      (∃ t, (m.mapPml4 pml4 phys virt flags).tableAt half pml4 (of virt).table = some t ∧
        (Machine.walk (Machine.mapLevel · flags) [index virt 39, index virt 30, index virt 21] m
          pml4).2 = some t) ∧
        ∀ w, (m.mapPml4 pml4 phys virt flags).entryAt half pml4 w =
          if w = of virt then userLeaf phys flags else m.entryAt half pml4 w) := by
  have hcome := h.walk_mapLevel virt flags hf hok hsmall hv
  rw [Machine.mapPml4]
  cases hr : Machine.walk (Machine.mapLevel · flags) [index virt 39, index virt 30, index virt 21]
      m pml4 with
  | mk m₁ pt =>
    rw [hr] at hcome
    cases pt with
    | none =>
      obtain ⟨htree, hext⟩ : Tree half ok {m₁ with events := m₁.events.unmap} pml4 ∧ _ :=
        hcome.tree.quiet rfl rfl (Nat.le_refl _)
      exact ⟨htree, .inl ⟨hcome.failed trivial rfl, hcome.found, rfl⟩⟩
    | some t =>
      have ht : m₁.tableAt half pml4 (of virt).table = some t := hcome.found
      have hsame : (m₁.setLeaf t (index virt 12) (userLeaf phys flags)).word =
          (m₁.store t (of virt).l (userLeaf phys flags)).word := rfl
      obtain ⟨htree, -⟩ :
          Tree half _ (m₁.setLeaf t (index virt 12) (userLeaf phys flags)) pml4 ∧ _ :=
        (hcome.tree.storeLeaf ht (userLeaf phys flags)).quiet rfl hsame (Nat.le_refl _)
      refine ⟨htree, .inr ⟨⟨t, ?_, rfl⟩, fun w => ?_⟩⟩
      · have hstore := hcome.tree.tableAt_storeLeaf ht (userLeaf phys flags)
        exact (congrFun ((tableAt_congr hsame half pml4).trans hstore) _).trans ht
      · refine (congrFun (entryAt_congr hsame half pml4) w).trans ?_
        rw [hcome.tree.entryAt_storeLeaf ht, hcome.grows.leaf]

/-- Where no entry on the way has a reserved bit, `pt_next` does not panic. -/
theorem Tree.mapPml4_calm (hcalm : ∀ e, ok e → has e reservedBits = false) :
    (m.mapPml4 pml4 phys virt flags).events.panics = m.events.panics := by
  have hkept := (h.walk_mapLevel virt flags hf hok hsmall hv).calm hcalm
  rw [Machine.mapPml4]
  split
  case h_1 hr =>
    rw [hr] at hkept
    exact hkept
  case h_2 hr =>
    rw [hr] at hkept
    exact hkept

end MapPml4

theorem Machine.descend_fst : (m.descend false t i).1 = m := by
  simp only [descend, Bool.false_eq_true, if_false]
  split_ifs
  all_goals rfl

theorem Machine.walk_descend_fst (is : List (BitVec 9)) :
    ∀ t : Ptr, (Machine.walk (Machine.descend · false) is m t).1 = m := by
  induction is with
  | nil => exact fun t => rfl
  | cons i rest ih =>
    intro t
    have hfst := descend_fst (m := m) (t := t) (i := i)
    rw [Machine.walk]
    cases hd : m.descend false t i with
    | mk m₁ next =>
      rw [hd] at hfst
      obtain rfl : m₁ = m := hfst
      cases next with
      | none => rfl
      | some n => exact ih n

theorem Machine.walk_descend (hclean : ∀ p t i, m.tableAt half pml4 p = some t → Leads half p i →
      has (m.word t i) pagePresent = true → CleanTable (m.word t i)) (is : List (BitVec 9)) :
    ∀ {t : Ptr} {p : List (BitVec 9)}, m.tableAt half pml4 p = some t →
      m.tableAt half pml4 (is.reverse ++ p) = some q →
      Machine.walk (Machine.descend · false) is m t = (m, some q) := by
  induction is with
  | nil => exact fun ht hq => congrArg (Prod.mk m) (ht.symm.trans hq)
  | cons i rest ih =>
    intro t p ht hq
    rw [reverse_cons, append_assoc, singleton_append] at hq
    obtain ⟨n, hn⟩ : ∃ n, m.tableAt half pml4 (i :: p) = some n := by
      refine ne_none_iff_exists'.mp fun hnone => ?_
      rw [tableAt_append_none hnone] at hq
      exact nomatch hq
    have hchild := tableChild_eq_some.mp ((tableAt_cons ht).symm.trans hn)
    obtain ⟨hlen, hhalf, hpresent, hsmall, hframe⟩ := hchild
    have hi : Leads half p i := ⟨hlen, fun hp => hhalf (by rw [hp]; rfl)⟩
    have hstep : m.descend false t i = (m, some n) := by
      rw [← hframe, ← hclean p t i ht hi hpresent hsmall]
      simp only [Machine.descend, hsmall, hpresent, Bool.false_eq_true, if_false, if_true]
    rw [Machine.walk, hstep]
    exact ih hn hq

/-- `pte_ptr` on a machine with the words of the tree. -/
theorem Tree.ptePtr_eq (hclean : ∀ e, ok e → CleanTable e) (h : Tree half ok m pml4)
    (hw : m'.word = m.word) {virt : BitVec 64}
    (ht : m.tableAt half pml4 (of virt).table = some t) :
    m'.ptePtr pml4 virt false = (m', some (t, index virt 12)) := by
  have hat := tableAt_congr hw half pml4
  have hentries (p : List (BitVec 9)) (t : Ptr) (i : BitVec 9)
      (hp : m'.tableAt half pml4 p = some t) (hi : Leads half p i)
      (hpresent : has (m'.word t i) pagePresent = true) : CleanTable (m'.word t i) := by
    rw [hat] at hp
    rw [hw] at hpresent ⊢
    exact hclean _ (h.entries p t i hp hi hpresent)
  have hwalk := walk_descend hentries [index virt 39, index virt 30, index virt 21]
    tableAt_nil (q := t) (by rw [hat]; exact ht)
  rw [ptePtr, hwalk]
  rfl

end

end Nyx.Paging
