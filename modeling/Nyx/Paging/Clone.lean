import Nyx.Paging.Cow

/-! `clone_page_directory_cow`.

The clone visits every leaf of the parent once, level by level (`Sweeps`), and shares what it
visits. -/
namespace Nyx.Paging
open Lib Machine List

/-! ### Full counters -/

section Saturations
variable {m : Machine}

theorem allocPage_saturations (m : Machine) :
    m.allocPage.1.events.saturations = m.events.saturations := by
  rw [allocPage]
  split <;> rfl

theorem descend_saturations (m : Machine) (create : Bool) (t : Ptr) (i : BitVec 9) :
    (m.descend create t i).1.events.saturations = m.events.saturations := by
  rw [Machine.descend]
  split
  · rfl
  split
  · rfl
  cases create with
  | false => rfl
  | true =>
    simp only [if_true]
    split <;> exact allocPage_saturations m

theorem walk_saturations {step : Machine → Ptr → BitVec 9 → Machine × Option Ptr}
    (hs : ∀ m t i, (step m t i).1.events.saturations = m.events.saturations)
    (is : List (BitVec 9)) (m : Machine) (t : Ptr) :
    (Machine.walk step is m t).1.events.saturations = m.events.saturations := by
  induction is generalizing m t with
  | nil => rfl
  | cons i rest ih =>
    have hstep := hs m t i
    rw [Machine.walk]
    split
    case h_1 m' next hr =>
      rw [hr] at hstep
      exact (ih m' next).trans hstep
    case h_2 m' hr =>
      rw [hr] at hstep
      exact hstep

/-- `shareLeaf` by the indices of its page. -/
theorem shareLeaf_eq (m : Machine) (child pt : Ptr) (v : Vpn) :
    m.shareLeaf child v.i v.j v.k pt v.l =
      if has (m.word pt v.l) pagePresent then
        match Machine.walk (Machine.descend · true) [v.i, v.j, v.k] m child with
        | (m', none) => (m', false)
        | (m', some ct) =>
          (((if has (m.word pt v.l) pageWritable then m'.store pt v.l (shareEntry (m.word pt v.l))
              else m').store ct v.l (shareEntry (m.word pt v.l))).pageIncref
            (frameOf (m.word pt v.l)), true)
      else (m, true) := by
  obtain ⟨hi, hj, hk, hl⟩ := index_pageAddr v.i v.j v.k v.l
  rw [shareLeaf, ptePtr, hi, hj, hk, hl]
  congr 1
  cases Machine.walk (Machine.descend · true) [v.i, v.j, v.k] m child with
  | mk m' ct => cases ct <;> rfl

theorem shareLeaf_saturations (m : Machine) (child pt : Ptr) (v : Vpn) :
    m.events.saturations ≤ (m.shareLeaf child v.i v.j v.k pt v.l).1.events.saturations := by
  have hwalk : (Machine.walk (Machine.descend · true) [v.i, v.j, v.k] m child).1.events.saturations =
      m.events.saturations :=
    walk_saturations (fun m t i => descend_saturations m true t i) [v.i, v.j, v.k] m child
  rw [shareLeaf_eq]
  split
  case isFalse => exact Nat.le_refl _
  case isTrue =>
    split
    case h_1 m' hr =>
      rw [hr] at hwalk
      exact hwalk.ge
    case h_2 m' ct hr =>
      rw [hr] at hwalk
      refine hwalk.ge.trans ?_
      split <;> exact Nat.le_add_right _ _

end Saturations

/-! ### One leaf -/

instance atLeastTwo_maxRefs : Nat.AtLeastTwo 255 := ⟨by decide⟩

/-- Some counter cannot take a reference more for every page of `parent` that it counts. -/
def Crowded (m₀ : Machine) (parent : Ptr) : Prop :=
  ∃ f, IsFrame f ∧ m₀.pinned f = false ∧
    255 < (m₀.refs f : ℕ∞) + {v : Vpn | m₀.frameAt parent v.path = some f}.encard

/-- A counter was full on the way from `m₀` to `m`. -/
def Overflows (parent : Ptr) (m₀ m : Machine) : Prop :=
  Crowded m₀ parent ∧ m₀.events.saturations < m.events.saturations

theorem Overflows.mono {parent : Ptr} {m₀ m m' : Machine} (h : Overflows parent m₀ m)
    (hle : m.events.saturations ≤ m'.events.saturations) : Overflows parent m₀ m' :=
  ⟨h.1, h.2.trans_le hle⟩

variable {parent child : Ptr} {x : Ptr → Nat} (strict : Prop)

/-- Sharing the pages `D` went well so far, or a counter was full on the way. -/
def Shares (d : Set Ptr) (x : Ptr → Nat) (parent child : Ptr) (m₀ : Machine) (D : Set Vpn)
    (m : Machine) : Prop :=
  Overflows parent m₀ m ∨ Cloned strict d x parent child m₀ D m

/-- Sharing stopped for want of memory. -/
def Starved (d : Set Ptr) (x : Ptr → Nat) (parent child : Ptr) (m₀ : Machine) (m : Machine) :
    Prop := Overflows parent m₀ m ∨
    (∃ D, Cloned strict d x parent child m₀ D m) ∧ m₀.events.nulls < m.events.nulls

/-- After a full counter nothing more is said. -/
theorem shares_or_starved {strict : Prop} {d : Set Ptr} {m₀ : Machine} {D : Set Vpn}
    {r : Machine × Bool} (h : Overflows parent m₀ r.1) :
    r.2 = true ∧ Shares strict d x parent child m₀ D r.1 ∨
      r.2 = false ∧ Starved strict d x parent child m₀ r.1 := by
  cases hr : r.2 with
  | true => exact .inl ⟨rfl, .inl h⟩
  | false => exact .inr ⟨rfl, .inl h⟩

/-- A page is left to share whose counter is full. -/
theorem Cloned.crowded {strict : Prop} {d : Set Ptr} {m₀ m : Machine} {D : Set Vpn} {v : Vpn}
    (h : Cloned strict d x parent child m₀ D m) (hl₀ : Ledger m₀ d x) (hpd : parent ∈ d)
    (hv : v ∉ D) (hpres : has (m₀.leaf parent v) pagePresent = true)
    (hpin : m.pinned (frameOf (m₀.leaf parent v)) = false)
    (hfull : m.refs (frameOf (m₀.leaf parent v)) = 255) : Crowded m₀ parent := by
  obtain ⟨hat, hframe, hheld⟩ := hl₀.mapped hpd hpres
  have hcount := h.counts _ hframe hheld (hl₀.leaf_not_table hpd hat)
  rw [hfull] at hcount
  have hle := min_eq_left_iff.mp hcount.symm
  have hmore : insert v {w | w ∈ D ∧ m₀.frameAt parent w.path = some (frameOf (m₀.leaf parent v))} ⊆
      {w | m₀.frameAt parent w.path = some (frameOf (m₀.leaf parent v))} := by
    rintro w (rfl | hw)
    · exact hat
    · exact hw.2
  have hcard := Set.encard_le_encard hmore
  rw [Set.encard_insert_of_notMem fun hx => hv hx.1] at hcard
  refine ⟨_, hframe, by rwa [← h.pinned], ?_⟩
  calc (255 : ℕ∞) < 255 + 1 := by decide
    _ ≤ _ := add_le_add_left hle 1
    _ = _ := add_assoc _ _ _
    _ ≤ _ := add_le_add_right hcard _

section Clone
variable {strict : Prop} {d : Set Ptr} {x : Ptr → Nat} {parent child : Ptr} {m₀ m : Machine}
  {D : Set Vpn} (hl₀ : Ledger m₀ d x) (hg₀ : strict → Guarded m₀ d) (hpd : parent ∈ d)
  (hcd : child ∈ d) (hne : parent ≠ child)
include hl₀ hg₀ hpd hcd hne

theorem shareLeaf_shares {v : Vpn} {pt : Ptr} (hv : v ∉ D) (huser : v.User)
    (hpt : m₀.frameAt parent v.table = some pt) (h : Shares strict d x parent child m₀ D m) :
    (m.shareLeaf child v.i v.j v.k pt v.l).2 = true ∧
        Shares strict d x parent child m₀ (D ∪ {v}) (m.shareLeaf child v.i v.j v.k pt v.l).1 ∨
      (m.shareLeaf child v.i v.j v.k pt v.l).2 = false ∧
        Starved strict d x parent child m₀ (m.shareLeaf child v.i v.j v.k pt v.l).1 := by
  rcases h with hsat | h
  · exact shares_or_starved (hsat.mono (shareLeaf_saturations m child pt v))
  have hl : Ledger m d x := h.moves.ledger hl₀
  have hword : m.word pt v.l = m₀.leaf parent v := by
    rw [← (h.rest v hv).1, leaf_eq ((h.tables parent hpd hne v.table v.table_length).trans hpt)]
  have hw : Walked strict d x m child v.table
      (Machine.walk (Machine.descend · true) [v.i, v.j, v.k] m child) := by
    refine walk_grows descend_grows [v.i, v.j, v.k] hl hcd (by simp) frameAt_nil ?_
    intro _ i hi
    obtain rfl : v.i = i := Option.some.inj hi
    exact huser
  have haside : ∀ pd ∈ d, pd ≠ child →
      (Machine.walk (Machine.descend · true) [v.i, v.j, v.k] m child).1.frameAt pd =
        m.frameAt pd := by
    intro pd hd hdc
    refine walk_aside [v.i, v.j, v.k] hl hcd hd hdc (by simp) frameAt_nil ?_
    intro _ i hi
    obtain rfl : v.i = i := Option.some.inj hi
    exact huser
  rw [shareLeaf_eq, hword]
  by_cases hpres : has (m₀.leaf parent v) pagePresent = true
  swap
  · rw [if_neg hpres]
    refine .inl ⟨rfl, .inr (h.skip hl₀ hpd ?_)⟩
    rintro w rfl
    exact Bool.not_eq_true _ ▸ hpres
  rw [if_pos hpres]
  cases hr : Machine.walk (Machine.descend · true) [v.i, v.j, v.k] m child with
  | mk m' n =>
    rw [hr] at hw haside
    have h' := h.grown hpd hcd hw.moves hw.grown haside
    cases n with
    | none =>
      refine .inr ⟨rfl, .inr ⟨⟨D, h'⟩, ?_⟩⟩
      exact (h.moves.events hl₀).nulls.trans_lt (hw.failed rfl)
    | some ct =>
      have hpt' := (h'.tables parent hpd hne v.table v.table_length).trans hpt
      have hword' : m'.word pt v.l = m₀.leaf parent v := by
        rw [← (h'.rest v hv).1, leaf_eq hpt']
      have hstore : (if has (m₀.leaf parent v) pageWritable
          then m'.store pt v.l (shareEntry (m₀.leaf parent v)) else m') =
          m'.store pt v.l (shareEntry (m₀.leaf parent v)) := by
        split
        case isTrue => rfl
        case isFalse hro =>
          rw [shareEntry, if_neg hro, ← hword']
          exact (m'.store_word pt v.l).symm
      dsimp only
      rw [hstore]
      by_cases hroom : m'.pinned (frameOf (m₀.leaf parent v)) = true ∨
          m'.refs (frameOf (m₀.leaf parent v)) < 255
      · exact .inl ⟨rfl, .inr (h'.step hl₀ hg₀ hpd hcd hne hv hpt' (hw.found ct rfl) hpres hroom)⟩
      obtain ⟨hpin, hlow⟩ := not_or.mp hroom
      have hfull : m'.refs (frameOf (m₀.leaf parent v)) = 255 :=
        Nat.le_antisymm (Nat.le_of_lt_succ (m'.refs_lt _)) (Nat.not_lt.mp hlow)
      rw [Bool.not_eq_true] at hpin
      refine .inl ⟨rfl, .inl ⟨h'.crowded hl₀ hpd hv hpres hpin hfull, ?_⟩⟩
      rw [pageIncref_events_saturations, if_pos]
      · exact Nat.lt_succ_of_le (h'.moves.events hl₀).saturations
      · exact ⟨hfull, hpin⟩

/-! ### The levels -/

end Clone

def below (p : List (BitVec 9)) : Set Vpn := {v | v.User ∧ p <:+ v.path}

variable {p : List (BitVec 9)} (i : BitVec 9)

theorem below_subset (p : List (BitVec 9)) : below (i :: p) ⊆ below p := by
  rintro v ⟨huser, hsuf⟩
  exact ⟨huser, (suffix_cons i p).trans hsuf⟩

theorem suffix_grow {α : Type} {p l : List α} (h : p <:+ l) (hlen : p.length < l.length) :
    ∃ i, i :: p <:+ l := by
  obtain ⟨q, rfl⟩ := h
  rcases eq_nil_or_concat q with rfl | ⟨q', i, rfl⟩
  · simp at hlen
  · exact ⟨i, q', by simp⟩

theorem below_nil : below [] = {v | v.User} := by
  ext v
  exact and_iff_left (nil_suffix)

theorem below_disjoint {i j : BitVec 9} (hne : i ≠ j) :
    Disjoint (below (i :: p)) (below (j :: p)) := by
  rw [Set.disjoint_left]
  rintro v ⟨_, hi⟩ ⟨_, hj⟩
  have heq := (suffix_of_suffix_length_le hi hj (Nat.le_refl _)).eq_of_length rfl
  exact hne (cons.inj heq).1

/-- The entries of a table that a user page can be below. -/
theorem below_split (hlen : p.length ≤ 3) {n : Nat}
    (hn : ∀ i : BitVec 9, (p = [] → i ≠ higher) → i ∈ indices n) :
    {v | ∃ i ∈ indices n, v ∈ below (i :: p)} = below p := by
  ext v
  constructor
  · rintro ⟨i, _, hv⟩
    exact below_subset i p hv
  rintro ⟨huser, hsuf⟩
  obtain ⟨i, hi⟩ := suffix_grow hsuf (Nat.lt_succ_of_le hlen)
  refine ⟨i, hn i ?_, huser, hi⟩
  rintro rfl rfl
  obtain ⟨q, hq⟩ := hi
  have hlast := congrArg getLast? hq
  rw [getLast?_append] at hlast
  exact huser (Option.some.inj hlast).symm

theorem below_leaf (i j k l : BitVec 9) (hi : i ≠ higher) :
    below [l, k, j, i] = {(⟨i, j, k, l⟩ : Vpn)} := by
  ext v
  constructor
  · rintro ⟨_, hsuf⟩
    exact Vpn.path_injective (hsuf.eq_of_length rfl).symm
  · rintro rfl
    exact ⟨hi, suffix_refl _⟩

theorem frameAt_below {m : Machine} {pd : Ptr} {v : Vpn} (h : m.frameAt pd p = none)
    (hlen : p.length ≤ 3) (hsuf : p <:+ v.path) : m.frameAt pd v.table = none := by
  rcases suffix_cons_iff.mp hsuf with rfl | ⟨q, hq⟩
  · exact absurd hlen (Nat.not_succ_le_self 3)
  rw [← hq]
  exact frameAt_append_none h q

/-- A visit of the table at `p` shares all pages below it, or stops for want of memory. -/
structure Sweeps (strict : Prop) (d : Set Ptr) (x : Ptr → Nat) (parent child : Ptr) (m₀ : Machine)
    (p : List (BitVec 9)) (visit : Machine → Ptr → Machine × Bool) : Prop where
  mono : ∀ m t, m.events.saturations ≤ (visit m t).1.events.saturations
  covers : ∀ D m t, m₀.frameAt parent p = some t → Disjoint D (below p) →
    Shares strict d x parent child m₀ D m →
    (visit m t).2 = true ∧ Shares strict d x parent child m₀ (D ∪ below p) (visit m t).1 ∨
      (visit m t).2 = false ∧ Starved strict d x parent child m₀ (visit m t).1

theorem nodup_user : (indices pml4Higher).Nodup := by
  have hnodup := nodup_indices
  rw [indices_split] at hnodup
  exact hnodup.of_append_left

theorem mem_user : (([] : List (BitVec 9)) = [] → i ≠ higher) ↔ i ∈ indices pml4Higher := by
  refine ⟨fun hi => ?_, fun hi _ => higher_notMem i hi⟩
  have hmem := mem_indices i
  rw [indices_split, mem_append, mem_singleton] at hmem
  exact hmem.resolve_right (hi rfl)

section Sweep
variable {strict : Prop} {d : Set Ptr} {x : Ptr → Nat} {parent child : Ptr} {m₀ m : Machine}
  {D : Set Vpn} {p : List (BitVec 9)} {n : Nat}

/-- A loop over a table whose every turn sweeps what is below its entry. -/
theorem forEach_sweeps {body : Machine → BitVec 9 → Machine × Bool} (hlen : p.length ≤ 3)
    (hn : ∀ i : BitVec 9, (p = [] → i ≠ higher) → i ∈ indices n) (hnodup : (indices n).Nodup)
    (h : ∀ i ∈ indices n, ∀ D m, Disjoint D (below (i :: p)) →
      Shares strict d x parent child m₀ D m →
      (body m i).2 = true ∧ Shares strict d x parent child m₀ (D ∪ below (i :: p)) (body m i).1 ∨
        (body m i).2 = false ∧ Starved strict d x parent child m₀ (body m i).1)
    (hD : Disjoint D (below p)) (hs : Shares strict d x parent child m₀ D m) :
    (forEach body (indices n) m).2 = true ∧
        Shares strict d x parent child m₀ (D ∪ below p) (forEach body (indices n) m).1 ∨
      (forEach body (indices n) m).2 = false ∧
        Starved strict d x parent child m₀ (forEach body (indices n) m).1 := by
  have hsub : ∀ i ∈ indices n, Disjoint D (below (i :: p)) := fun i _ =>
    hD.mono_right (below_subset i p)
  have hcovers := forEach_covers (indices n) (hnodup.imp below_disjoint) h hsub hs
  rwa [below_split hlen hn] at hcovers

variable {body : Machine → BitVec 9 → Machine × Bool}

theorem forEach_mono {is : List (BitVec 9)}
    (h : ∀ i ∈ is, ∀ m, m.events.saturations ≤ (body m i).1.events.saturations) (m : Machine) :
    m.events.saturations ≤ (forEach body is m).1.events.saturations :=
  forEach_keeps (P := fun m' : Machine => m.events.saturations ≤ m'.events.saturations) is
    (fun i hi m' hm' => hm'.trans (h i hi m')) (Nat.le_refl _)

end Sweep

section Clone
variable {strict : Prop} {d : Set Ptr} {x : Ptr → Nat} {parent child : Ptr} {m₀ m : Machine}
  (hl₀ : Ledger m₀ d x) (hg₀ : strict → Guarded m₀ d) (hpd : parent ∈ d)
  (hcd : child ∈ d) (hne : parent ≠ child)
include hl₀ hg₀ hpd hcd hne

theorem shareTable_sweeps {i j k : BitVec 9} (hi : i ≠ higher) {n : Nat}
    (hn : ∀ l, l ∈ indices n) (hnodup : (indices n).Nodup) :
    Sweeps strict d x parent child m₀ [k, j, i] fun m pt =>
      forEach (shareLeaf child i j k pt) (indices n) m where
  mono m pt := forEach_mono (fun l _ m => shareLeaf_saturations m child pt ⟨i, j, k, l⟩) m
  covers D m pt hpt hD h := by
    refine forEach_sweeps (n := n) (p := [k, j, i]) (Nat.le_refl 3) (fun l _ => hn l) hnodup ?_ hD h
    intro l _ D m hdisj hs
    rw [below_leaf i j k l hi, Set.disjoint_singleton_right] at hdisj
    rw [below_leaf i j k l hi]
    exact shareLeaf_shares hl₀ hg₀ hpd hcd hne (v := ⟨i, j, k, l⟩) hdisj hi hpt hs

omit hg₀ hcd in
/-- One level of the clone, above a level that sweeps. -/
theorem visitEach_sweeps {p : List (BitVec 9)} (hlen : p.length < 3) {n : Nat}
    (hn : ∀ i : BitVec 9, (p = [] → i ≠ higher) ↔ i ∈ indices n) (hnodup : (indices n).Nodup)
    {live : BitVec 64 → Bool}
    (hlive : ∀ m t i, Ledger m d x → m.frameAt parent p = some t → (p = [] → i ≠ higher) →
      live (m.word t i) = has (m.word t i) pagePresent)
    {visit : Machine → BitVec 9 → Ptr → Machine × Bool}
    (hvisit : ∀ i ∈ indices n, Sweeps strict d x parent child m₀ (i :: p) (visit · i)) :
    Sweeps strict d x parent child m₀ p (visitEach live visit n) where
  mono m t := by
    refine forEach_mono (fun i hi m => ?_) m
    split
    · exact (hvisit i hi).mono m _
    · exact Nat.le_refl _
  covers D m t ht hD h := by
    refine forEach_sweeps hlen.le (fun i hi => (hn i).mp hi) hnodup ?_ hD h
    intro i hi D m hdisj hs
    rcases hs with hsat | hc
    · split
      · exact shares_or_starved (hsat.mono ((hvisit i hi).mono m _))
      · exact .inl ⟨rfl, .inl hsat⟩
    have hl : Ledger m d x := hc.moves.ledger hl₀
    have ht' : m.frameAt parent p = some t := (hc.tables parent hpd hne p hlen.le).trans ht
    have hentry := hc.tables parent hpd hne (i :: p) hlen
    rw [hlive m t i hl ht' ((hn i).mpr hi)]
    by_cases hpres : has (m.word t i) pagePresent = true
    · rw [if_pos hpres]
      refine (hvisit i hi).covers D m _ ?_ hdisj (.inr hc)
      rw [← hentry, Ledger.frameAt_entry hlen ht' ((hn i).mpr hi) hpres]
    rw [if_neg hpres]
    refine .inl ⟨rfl, .inr (hc.skip hl₀ hpd ?_)⟩
    rintro v ⟨_, hsuf⟩
    have hnone : m₀.frameAt parent (i :: p) = none := by
      rw [← hentry, frameAt_cons ht', Machine.child, if_neg fun hx => hpres hx.2.2]
    rw [Machine.leaf, frameAt_below hnone hlen hsuf, has_zero]

theorem clone_sweeps : Sweeps strict d x parent child m₀ [] (visitEach isPresent (fun m i pdpt =>
      visitEach Machine.isTable (fun m j pd =>
        visitEach Machine.isTable (fun m k pt =>
          forEach (shareLeaf child i j k pt) (indices 512) m) 512 m pd) 512 m pdpt)
      pml4Higher) := by
  have hall : ∀ {p : List (BitVec 9)} {i : BitVec 9}, p ≠ [] →
      ((p = [] → i ≠ higher) ↔ i ∈ indices 512) := fun hp =>
    ⟨fun _ => mem_indices _, fun _ hx => absurd hx hp⟩
  have htable : ∀ {p : List (BitVec 9)}, p.length < 3 → ∀ m t i, Ledger m d x →
      m.frameAt parent p = some t → (p = [] → i ≠ higher) →
      Machine.isTable (m.word t i) = has (m.word t i) pagePresent :=
    fun hp _ _ _ h ht hi => h.isTable_entry hpd hp ht hi
  refine visitEach_sweeps hl₀ hpd hne (by simp) mem_user nodup_user (fun _ _ _ _ _ _ => rfl) fun i hi => ?_
  refine visitEach_sweeps hl₀ hpd hne (by simp) (fun _ => hall (by simp)) nodup_indices
    (htable (by simp)) fun j _ => ?_
  refine visitEach_sweeps hl₀ hpd hne (by simp) (fun _ => hall (by simp)) nodup_indices
    (htable (by simp)) fun k _ => ?_
  exact shareTable_sweeps hl₀ hg₀ hpd hcd hne (higher_notMem i hi) mem_indices nodup_indices

end Clone

/-! ### The clone -/

/-- `m'` is `m` with a new address space `q`, which shares the pages `D` of `parent`. -/
structure Copied (strict : Prop) (d : Set Ptr) (x : Ptr → Nat) (parent : Ptr) (m : Machine)
    (D : Set Vpn) (q : Ptr) (m' : Machine) : Prop where
  frame : IsFrame q
  unused : m.refs q = 0
  new : q ∉ d
  moves : Moves strict ⟨m, d, x⟩ ⟨m', insert q d, x⟩
  shared : ∀ v ∈ D, m'.leaf parent v = shareEntry (m.leaf parent v) ∧
    m'.leaf q v = shareEntry (m.leaf parent v)
  rest : ∀ v ∉ D, m'.leaf parent v = m.leaf parent v ∧ m'.leaf q v = 0#64
  others : ∀ pd ∈ d, pd ≠ parent → ∀ v, m'.leaf pd v = m.leaf pd v
  tables : ∀ pd ∈ d, ∀ path : List (BitVec 9), path.length ≤ 3 →
    m'.frameAt pd path = m.frameAt pd path
  page : ∀ f, IsFrame f → m.refs f ≠ 0 → ¬ m.IsTable d f →
    m'.word f = m.word f ∧ m.refs f ≤ m'.refs f ∧ ¬ m'.IsTable (insert q d) f
  free : ∀ f, IsFrame f → m'.refs f = 0 → m.refs f = 0 ∧ m'.word f = m.word f
  pinned : m'.pinned = m.pinned
  leaks : m'.events.leaks = m.events.leaks
  counts : ∀ f, IsFrame f → m.refs f ≠ 0 → ¬ m.IsTable d f →
    (m'.refs f : ℕ∞) = min 255 (m.refs f + {v | v ∈ D ∧ m.frameAt parent v.path = some f}.encard)

variable {x : Ptr → Nat} {d : Set Ptr} {m m₀ m' : Machine} {parent q : Ptr} {strict : Prop}

theorem Copied.of_cloned {D : Set Vpn} (ho : Opened d m m₀ q) (hpd : parent ∈ d)
    (hm : Moves strict ⟨m, d, x⟩ ⟨m₀, insert q d, x⟩)
    (hc : Cloned strict (insert q d) x parent q m₀ D m') : Copied strict d x parent m D q m' where
  frame := ho.frame
  unused := ho.unused
  new := ho.new
  moves := hm.trans hc.moves
  shared v hv := by
    rw [← ho.leaf parent hpd v]
    exact hc.shared v hv
  rest v hv := by
    rw [← ho.leaf parent hpd v]
    exact hc.rest v hv
  others pd hd hne v := by
    rw [hc.others pd (.inr hd) hne (fun hx => ho.new (hx ▸ hd)) v, ho.leaf pd hd v]
  tables pd hd path hlen := by
    rw [hc.tables pd (.inr hd) (fun hx => ho.new (hx ▸ hd)) path hlen, ho.frameAt pd hd]
  page f hf hr ht := by
    obtain ⟨hr₀, hw₀, _, ht₀⟩ := ho.spares.page f hf hr ht
    obtain ⟨hw, hle, hnot⟩ := hc.page f hf (by rwa [hr₀]) ht₀
    exact ⟨hw.trans hw₀, hr₀ ▸ hle, hnot⟩
  free f hf hz := by
    obtain ⟨hz₀, hw⟩ := hc.free f hf hz
    obtain ⟨hz', hw₀⟩ := ho.spares.free f hf hz₀
    exact ⟨hz', hw.trans hw₀⟩
  pinned := hc.pinned.trans ho.pinned
  leaks := by rw [hc.leaks, ho.events]
  counts f hf hr ht := by
    obtain ⟨hr₀, _, _, ht₀⟩ := ho.spares.page f hf hr ht
    have hcount := hc.counts f hf (by rwa [hr₀]) ht₀
    rwa [hr₀, ho.frameAt parent hpd] at hcount

theorem Overflows.of_opened (h : Overflows parent m₀ m') (hl : Ledger m d x) (ho : Opened d m m₀ q)
    (hpd : parent ∈ d) : Overflows parent m m' := by
  obtain ⟨⟨f, hf, hpin, hmany⟩, hsat⟩ := h
  rw [ho.frameAt parent hpd] at hmany
  rw [ho.events] at hsat
  refine ⟨⟨f, hf, by rwa [← ho.pinned], ?_⟩, hsat⟩
  rcases Set.eq_empty_or_nonempty {v : Vpn | m.frameAt parent v.path = some f} with hnone | ⟨v, hv⟩
  · rw [hnone, Set.encard_empty, add_zero] at hmany
    have hlt : 255 < m₀.refs f := by exact_mod_cast hmany
    exact absurd (m₀.refs_lt f) (Nat.not_lt.mpr hlt)
  · rwa [(ho.spares.page f hf (hl.held hpd hv) (hl.leaf_not_table hpd hv)).1] at hmany

theorem freeEach_events {live : BitVec 64 → Bool} {release : Machine → Ptr → Machine}
    (h : ∀ m p, (release m p).events = m.events) (n : Nat) (m : Machine) (t : Ptr) :
    (freeEach live release n m t).events = m.events := by
  refine foldl_view Machine.events (fun m i => ?_) m (indices n)
  split
  · exact h m _
  · rfl

theorem freePageDirectory_events (m : Machine) (pd : Ptr) :
    (m.freePageDirectory pd).events = m.events := by
  rw [Machine.freePageDirectory]
  split
  · rfl
  refine freeEach_events (freeEach_events (freeEach_events (freeEach_events ?_ 512) 512) 512) _ m pd
  exact fun _ _ => rfl

/-- `clone_page_directory_cow` shares every page, or fails and releases what it shared so far;
or it met a full counter. -/
theorem clonePageDirectoryCow_cases {m : Machine} {parent : Ptr} (hl : Ledger m d x)
    (hg : strict → Guarded m d) (hpd : parent ∈ d) :
    Overflows parent m (m.clonePageDirectoryCow parent).1 ∨
      ((m.clonePageDirectoryCow parent).2 = 0#64 ∧ m.Refused (m.clonePageDirectoryCow parent).1) ∨
      (∃ D q m', (m.clonePageDirectoryCow parent).2 = 0#64 ∧ Copied strict d x parent m D q m' ∧
        m.events.nulls < m'.events.nulls ∧
        (m.clonePageDirectoryCow parent).1 = m'.freePageDirectory q) ∨
      Copied strict d x parent m {v | v.User} (m.clonePageDirectoryCow parent).2
        (m.clonePageDirectoryCow parent).1 := by
  rw [clonePageDirectoryCow, if_neg (hl.dir parent hpd).ne_zero]
  rcases allocPageDirectory_cases hl with ⟨hnull, href⟩ | ⟨hopen, hm⟩
  · simp only [hnull, if_true]
    exact .inr (.inl ⟨trivial, href⟩)
  simp only [hopen.frame.ne_zero, if_false]
  generalize m.allocPageDirectory = r at hopen hm
  have hl₀ : Ledger r.1 (insert r.2 d) x := (hm True).ledger hl
  have hg₀ : strict → Guarded r.1 (insert r.2 d) := fun hs => (hm strict).guarded hs hl (hg hs)
  have hne : parent ≠ r.2 := fun hx => hopen.new (hx ▸ hpd)
  have hsweeps := clone_sweeps hl₀ hg₀ (.inr hpd) (.inl rfl) hne
  have hstart : Shares strict (insert r.2 d) x parent r.2 r.1 ∅ r.1 := .inr (.start hopen.empty)
  have hcovers := hsweeps.covers ∅ r.1 parent rfl (Set.empty_disjoint _) hstart
  rw [Set.empty_union, below_nil] at hcovers
  split
  case h_1 m' hr =>
    rw [hr] at hcovers
    rcases hcovers with ⟨_, hover | hc⟩ | ⟨hx, _⟩
    · exact .inl (hover.of_opened hl hopen hpd)
    · exact .inr (.inr (.inr (.of_cloned hopen hpd (hm strict) hc)))
    · cases hx
  case h_2 m' hr =>
    rw [hr] at hcovers
    rcases hcovers with ⟨hx, _⟩ | ⟨_, hover | ⟨⟨D, hc⟩, hnulls⟩⟩
    · cases hx
    · refine .inl ((hover.of_opened hl hopen hpd).mono ?_)
      rw [freePageDirectory_events]
    · rw [hopen.events] at hnulls
      exact .inr (.inr (.inl ⟨D, r.2, m', rfl, .of_cloned hopen hpd (hm strict) hc, hnulls, rfl⟩))

end Nyx.Paging
