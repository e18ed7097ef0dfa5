import Nyx.Paging.Walk

/-! Mapping a page. A page that is mapped over another one, or not at all for want of a
table, costs a frame, and the events say so (`Settles`); the pages there were keep their
frames and contents (`Spares`). -/
namespace Nyx.Paging
open Lib Function Machine

/-- The events after which a frame may be lost. -/
def Events.leaks (ev : Events) : Nat := ev.unmapped + ev.replaced + ev.orphans

theorem Events.Le.leaks {ev ev' : Events} (h : ev.Le ev') : ev.leaks ≤ ev'.leaks :=
  Nat.add_le_add (Nat.add_le_add h.unmapped h.replaced) h.orphans

/-- By moves to `m'`, where the references outside the tables are `x'` unless one was lost. -/
def Settles (strict : Prop) (a : Account) (m' : Machine) (d' : Set Ptr) (x' : Ptr → Nat) : Prop :=
  ∃ x, Moves strict a ⟨m', d', x⟩ ∧ (x = x' ∨ a.machine.events.leaks < m'.events.leaks)

variable {x' : Ptr → Nat} {strict : Prop} {m' : Machine} {d' : Set Ptr}

theorem Settles.of_moves {a : Account} (h : Moves strict a ⟨m', d', x'⟩) :
    Settles strict a m' d' x' :=
  ⟨x', h, .inl rfl⟩

/-- Moves first, then a call. -/
theorem Settles.after {a b : Account} (h : Moves strict a b) (ha : a.Balanced)
    (hb : Settles strict b m' d' x') : Settles strict a m' d' x' := by
  obtain ⟨x, hx, hend⟩ := hb
  exact ⟨x, h.trans hx, hend.imp_right fun hl => lt_of_le_of_lt (h.events ha).leaks hl⟩

/-- The pages in use stay as they are, and so do the frames nobody uses. -/
structure Spares (d d' : Set Ptr) (m m' : Machine) : Prop where
  page : ∀ f, IsFrame f → m.refs f ≠ 0 → ¬ m.IsTable d f →
    m'.refs f = m.refs f ∧ m'.word f = m.word f ∧ m'.pinned f = m.pinned f ∧ ¬ m'.IsTable d' f
  free : ∀ f, IsFrame f → m'.refs f = 0 → m.refs f = 0 ∧ m'.word f = m.word f

namespace Spares
variable {d d' d'' : Set Ptr} {m m' m'' : Machine}

theorem trans (h : Spares d d' m m') (h' : Spares d' d'' m' m'') : Spares d d'' m m'' where
  page f hf hr ht := by
    obtain ⟨hr', hw', hp', ht'⟩ := h.page f hf hr ht
    obtain ⟨hr'', hw'', hp'', ht''⟩ := h'.page f hf (by rwa [hr']) ht'
    exact ⟨hr''.trans hr', hw''.trans hw', hp''.trans hp', ht''⟩
  free f hf hz := by
    obtain ⟨hz', hw'⟩ := h'.free f hf hz
    obtain ⟨hz'', hw''⟩ := h.free f hf hz'
    exact ⟨hz'', hw'.trans hw''⟩

theorem of_grown (h : Grown d m m') : Spares d d m m' where
  page f hf hr ht := by
    refine ⟨h.refs f hf hr, h.word f hf hr ht, by rw [h.pinned], fun ht' => ?_⟩
    exact (h.tables f hf ht').elim ht hr
  free := h.free

theorem of_quiet (hf : m'.frames = m.frames) (hw : m'.word = m.word) : Spares d d m m' := by
  have hrefs : m'.refs = m.refs := by
    funext p
    rw [refs, refcount, hf, refs, refcount]
  constructor
  case page =>
    intro f _ _ ht
    refine ⟨by rw [hrefs], by rw [hw], by rw [pinned, hf, pinned], ?_⟩
    rwa [Ledger.isTable_eq (m := m) fun _ _ => by rw [hw]]
  case free =>
    intro f _ hz
    rw [hrefs] at hz
    exact ⟨hz, by rw [hw]⟩

theorem of_took {p : Ptr} (h : m.Took m' p) : Spares d d m m' := by
  constructor
  case page =>
    intro f hf hr ht
    have hne : f ≠ p := fun he => hr (he ▸ h.fresh)
    refine ⟨by rw [h.refs f hf, if_neg hne], by rw [h.word], by rw [h.pinned], ?_⟩
    rwa [Ledger.isTable_eq (m := m) fun _ _ => by rw [h.word]]
  case free =>
    intro f hf hz
    rw [h.refs f hf] at hz
    split at hz
    · exact absurd hz (by decide)
    · exact ⟨hz, by rw [h.word]⟩

/-- Writing a page that was not in use before. -/
theorem fill {p : Ptr} (h : Spares d d' m m') (hfree : m.refs p = 0) (hr : m'.refs p ≠ 0)
    (ht : ¬ m'.IsTable d' p) (page : BitVec 9 → BitVec 64) : Spares d d' m (m'.fill p page) := by
  have hword : ∀ f, m'.IsTable d' f → (m'.fill p page).word f = m'.word f := fun f hf =>
    fill_ne fun he : f = p => ht (he ▸ hf)
  constructor
  case page =>
    intro f hf hr' ht'
    have hne : f ≠ p := fun he => hr' (he ▸ hfree)
    obtain ⟨h1, h2, h3, h4⟩ := h.page f hf hr' ht'
    refine ⟨h1, by rw [fill_ne hne, h2], h3, ?_⟩
    rwa [Ledger.isTable_eq hword]
  case free =>
    intro f hf hz
    have hne : f ≠ p := fun he => hr (he ▸ hz)
    obtain ⟨h1, h2⟩ := h.free f hf hz
    exact ⟨h1, by rw [fill_ne hne, h2]⟩

theorem store {extra : Ptr → Nat} {pd t : Ptr} {v : Vpn} (h : Ledger m d extra) (hpd : pd ∈ d)
    (ht : m.frameAt pd v.table = some t) (e : BitVec 64) : Spares d d m (m.store t v.l e) := by
  have htable := Ledger.isTable hpd v.table_length ht
  constructor
  case page =>
    intro f hf hr hnt
    have hne : f ≠ t := fun he => hnt (he ▸ htable)
    exact ⟨rfl, store_page_ne hne, rfl, fun hx => hnt ((h.isTable_storeLeaf hpd ht e f).mp hx)⟩
  case free =>
    intro f hf hz
    have hne : f ≠ t := fun he => h.held hpd ht (he ▸ hz)
    exact ⟨hz, store_page_ne hne⟩

end Spares

/-! ### Frames just taken -/

/-- A frame in the hands of the call that took it. -/
structure Fresh (m : Machine) (x : Ptr → Nat) (p : Ptr) : Prop where
  frame : IsFrame p
  refs : m.refs p = 1
  extra : x p = 1
  unpinned : m.pinned p = false

namespace Fresh
variable {m m' : Machine} {d : Set Ptr} {x : Ptr → Nat} {p : Ptr}

theorem held (h : Fresh m x p) : m.refs p ≠ 0 := ne_of_eq_of_ne h.refs Nat.one_ne_zero

theorem of_took (h : Ledger m d x) (ht : m.Took m' p) : Fresh m' (bump x p) p where
  frame := ht.frame
  refs := by rw [ht.refs p ht.frame, if_pos rfl]
  extra := by simp [bump, h.extra_of_fresh ht.frame ht.fresh]
  unpinned := by rw [ht.pinned, h.unpinned_of_fresh ht.frame ht.fresh]

theorem not_table (h : Fresh m x p) (hl : Ledger m d x) : ¬ m.IsTable d p :=
  hl.not_table (.inr (ne_of_eq_of_ne h.extra Nat.one_ne_zero))

theorem fill (h : Fresh m x p) (page : BitVec 9 → BitVec 64) : Fresh (m.fill p page) x p :=
  ⟨h.frame, h.refs, h.extra, h.unpinned⟩

theorem spared (h : Fresh m x p) (hl : Ledger m d x) (hs : Spares d d m m') : Fresh m' x p := by
  obtain ⟨hr, _, hp, _⟩ := hs.page p h.frame h.held (h.not_table hl)
  exact ⟨h.frame, hr.trans h.refs, h.extra, hp.trans h.unpinned⟩

/-- Any entry may map it. -/
theorem guards (h : Fresh m x p) {e : BitVec 64} (he : frameOf e = p) : m.Guards e := by
  intro _
  rw [he]
  exact ⟨fun _ => h.refs, fun _ => h.unpinned⟩

end Fresh

theorem Machine.Refused.move {strict : Prop} {m m' : Machine} {d : Set Ptr} {x : Ptr → Nat}
    (h : m.Refused m') : Move strict ⟨m, d, x⟩ ⟨m', d, x⟩ :=
  .quiet h.frames h.word (h.events ▸ .null _ _)

/-! ### Leaves -/

/-- `m'` is `m` with a page mapped by the entry `e`, and perhaps more tables. -/
structure Maps (d : Set Ptr) (pd : Ptr) (v : Vpn) (e : BitVec 64) (m m' : Machine) : Prop where
  leaf : ∀ pd' ∈ d, ∀ v', m'.leaf pd' v' = if pd' = pd ∧ v' = v then e else m.leaf pd' v'
  spares : Spares d d m m'
  nulls : m'.events.nulls = m.events.nulls

section Leaf
variable (strict : Prop) {d : Set Ptr} {x : Ptr → Nat} {m : Machine} {pd t : Ptr} {v : Vpn}
  {e : BitVec 64} (h : Ledger m d x) (hpd : pd ∈ d) (ht : m.frameAt pd v.table = some t)
include h hpd ht

theorem setLeaf_settles (hpres : has e pagePresent = true) (huser : has e pageUser = true)
    (hframe : IsFrame (frameOf e)) (hex : m.pinned (frameOf e) = true ∨ x (frameOf e) ≠ 0)
    (hg : strict → m.Guards e) :
    Settles strict ⟨m, d, x⟩ (m.setLeaf t v.l e) d (drop x (frameOf e)) := by
  have hquiet : ∀ x', Move strict ⟨m.store t v.l e, d, x'⟩ ⟨m.setLeaf t v.l e, d, x'⟩ := fun x' =>
    .quiet rfl rfl (.replace _ _)
  cases hold : has (m.word t v.l) pagePresent with
  | false =>
    exact .of_moves (.tail (.single (.put hpd ht hold hpres huser hframe hex hg)) (hquiet _))
  | true =>
    -- the old leaf comes out first
    have hclear : Move strict ⟨m, d, x⟩ _ := .clear hpd ht
    rw [if_pos hold] at hclear
    have ht' : (m.store t v.l 0#64).frameAt pd v.table = some t := by
      rw [h.frameAt_storeLeaf_table hpd ht 0#64 hpd v.table_length, ht]
    have hgone : has ((m.store t v.l 0#64).word t v.l) pagePresent = false := by
      rw [store_self, has_zero]
    have hput : ∀ x', (m.pinned (frameOf e) = true ∨ x' (frameOf e) ≠ 0) →
        Moves strict ⟨m.store t v.l 0#64, d, x'⟩ ⟨m.setLeaf t v.l e, d, drop x' (frameOf e)⟩ := by
      intro x' hex'
      have hmove : Move strict ⟨_, d, x'⟩ _ := .put hpd ht' hgone hpres huser hframe hex' hg
      rw [store_store] at hmove
      exact .tail (.single hmove) (hquiet _)
    cases hpin : m.pinned (frameOf (m.word t v.l)) with
    | true =>
      -- a pinned frame needs no account
      have hforget : Move strict
          ⟨m.store t v.l 0#64, d, bump x (frameOf (m.word t v.l))⟩ ⟨m.store t v.l 0#64, d, x⟩ := by
        refine .forget fun f hf => ?_
        rw [bump, update_of_ne]
        rintro rfl
        rw [store_pinned, hpin] at hf
        exact absurd hf (by decide)
      exact .of_moves (.head hclear (.head hforget (hput x hex)))
    | false =>
      refine ⟨_, .head hclear (hput _ ?_), .inr ?_⟩
      · refine hex.imp_right fun hx => ?_
        rw [bump, update_apply]
        split
        · exact Nat.succ_ne_zero _
        · exact hx
      · show m.events.leaks < (m.events.replace (has (m.word t v.l) pagePresent && _)).leaks
        rw [hold, hpin]
        exact Nat.add_lt_add_right (Nat.add_lt_add_left (Nat.lt_succ_self _) _) _

theorem setLeaf_maps (e : BitVec 64) : Maps d pd v e m (m.setLeaf t v.l e) where
  leaf _ hpd' v' := h.leaf_storeLeaf hpd ht e hpd' v'
  spares := (Spares.store h hpd ht e).trans (.of_quiet rfl rfl)
  nulls := rfl

end Leaf

theorem Maps.after_grown {d : Set Ptr} {pd : Ptr} {v : Vpn} {e : BitVec 64} {m m' m'' : Machine}
    (hg : Grown d m m') (hn : m'.events.nulls = m.events.nulls) (h : Maps d pd v e m' m'') :
    Maps d pd v e m m'' where
  leaf pd' hpd' v' := by rw [h.leaf pd' hpd' v', hg.leaf pd' hpd' v']
  spares := (Spares.of_grown hg).trans h.spares
  nulls := h.nulls.trans hn

/-! ### `map_pml4` -/

theorem and_nx (flags : BitVec 64) : flags &&& pageNx = 0#64 ∨ flags &&& pageNx = pageNx := by
  rw [show pageNx = BitVec.twoPow 64 63 by decide, BitVec.and_twoPow]
  split
  · exact .inr rfl
  · exact .inl rfl

/-- The leaf `map_pml4` writes for a user page. -/
def userLeaf (phys : Ptr) (flags : BitVec 64) : BitVec 64 :=
  phys ||| pagePresent ||| pageWritable ||| (flags &&& pageUser) ||| (flags &&& pageNx)

section UserLeaf
variable {phys : Ptr} {flags : BitVec 64} (hp : IsFrame phys)
  (hf : flags &&& pageUser = pageUser)
include hp hf

omit hp in
theorem userLeaf_eq : userLeaf phys flags = phys ||| 7#64 ∨
    userLeaf phys flags = phys ||| (7#64 ||| pageNx) := by
  have hbits : phys ||| pagePresent ||| pageWritable ||| pageUser = phys ||| 7#64 := by
    rw [BitVec.or_assoc, BitVec.or_assoc]
    rfl
  rw [userLeaf, hf, hbits]
  rcases and_nx flags with hnx | hnx
  · exact .inl (by rw [hnx, BitVec.or_zero])
  · exact .inr (by rw [hnx, BitVec.or_assoc])

theorem userLeaf_frame : frameOf (userLeaf phys flags) = phys := by
  rcases userLeaf_eq hf with h | h
  · rw [h, frameOf_or hp (by decide)]
  · rw [h, frameOf_or hp (by decide)]

theorem userLeaf_has {flag : BitVec 64} (hflag : flag &&& pteAddrMask = 0#64)
    (hnx : pageNx &&& flag = 0#64) : has (userLeaf phys flags) flag = has 7#64 flag := by
  rcases userLeaf_eq hf with h | h
  · rw [h, has_or hp hflag]
  rw [h, has_or hp hflag, has_lor, show has pageNx flag = false by rw [has, hnx]; rfl,
    Bool.or_false]

end UserLeaf

/-- The leaf `map_page_ro` writes. -/
def roLeaf (phys : Ptr) (exec : Bool) : BitVec 64 :=
  frameOf phys ||| (pagePresent ||| pageUser ||| if exec then 0#64 else pageNx)

theorem roLeaf_frame {phys : Ptr} (hp : IsFrame phys) (exec : Bool) :
    frameOf (roLeaf phys exec) = phys := by
  rw [roLeaf, hp.frameOf_eq]
  cases exec <;> exact frameOf_or hp (by decide)

theorem roLeaf_has {phys : Ptr} (hp : IsFrame phys) (exec : Bool) {flag : BitVec 64}
    (hflag : flag &&& pteAddrMask = 0#64) (hnx : pageNx &&& flag = 0#64) :
    has (roLeaf phys exec) flag = has 5#64 flag := by
  have hzero : has (if exec then 0#64 else pageNx) flag = false := by
    cases exec
    · show has pageNx flag = false
      rw [has, hnx]
      rfl
    · exact has_zero flag
  rw [roLeaf, hp.frameOf_eq, has_or hp hflag, has_lor, hzero, Bool.or_false]
  rfl

section MapPml4
variable (strict : Prop) {d : Set Ptr} {x : Ptr → Nat} {m : Machine} {pd phys : Ptr}
  {virt flags : BitVec 64} (h : Ledger m d x) (hpd : pd ∈ d) (hv : (Vpn.of virt).User)
  (hf : flags &&& pageUser = pageUser)
include h hpd hv hf

/-- The frame ends in the tables, or is lost. -/
theorem mapPml4_settles (hp : Fresh m x phys) :
    Settles strict ⟨m, d, x⟩ (m.mapPml4 pd phys virt flags) d (drop x phys) := by
  have hw : Walked strict d x m pd _ _ := walkTo_grows h hpd hv (mapLevel_grows hf)
  rw [mapPml4]
  cases hr : walk (mapLevel · flags) [index virt 39, index virt 30, index virt 21] m pd with
  | mk m1 pt =>
    rw [hr] at hw
    have hl := hw.moves.ledger h
    cases pt with
    | none =>
      refine ⟨x, hw.moves.tail (.quiet rfl rfl (.unmap _)), .inr ?_⟩
      refine lt_of_le_of_lt (hw.moves.events h).leaks ?_
      exact Nat.add_lt_add_right (Nat.add_lt_add_right (Nat.lt_succ_self _) _) _
    | some t =>
      have hp' := hp.spared h (.of_grown hw.grown)
      have hframe := userLeaf_frame hp.frame hf
      have hset := setLeaf_settles strict hl hpd (hw.found t rfl) (e := userLeaf phys flags) (by rw [userLeaf_has hp.frame hf (by decide) (by decide)]; decide)
        (by rw [userLeaf_has hp.frame hf (by decide) (by decide)]; decide)
        (by rw [hframe]; exact hp.frame)
        (.inr (by rw [hframe]; exact ne_of_eq_of_ne hp.extra Nat.one_ne_zero))
        (fun _ => hp'.guards hframe)
      rw [hframe] at hset
      exact .after hw.moves h hset

/-- The page is mapped, unless an allocation failed. -/
theorem mapPml4_maps : m.events.nulls < (m.mapPml4 pd phys virt flags).events.nulls ∨
    Maps d pd (Vpn.of virt) (userLeaf phys flags) m (m.mapPml4 pd phys virt flags) := by
  have hw : Walked True d x m pd _ _ := walkTo_grows h hpd hv (mapLevel_grows hf)
  rw [mapPml4]
  cases hr : walk (mapLevel · flags) [index virt 39, index virt 30, index virt 21] m pd with
  | mk m1 pt =>
    rw [hr] at hw
    cases pt with
    | none => exact .inl (hw.failed rfl)
    | some t =>
      rcases lt_or_eq_of_le (hw.moves.events h).nulls with hlt | heq
      · exact .inl hlt
      exact .inr (.after_grown hw.grown heq.symm
        (setLeaf_maps (hw.moves.ledger h) hpd (hw.found t rfl) _))

end MapPml4

/-! ### Calls -/

/-- A call that goes by moves and leaves the references outside the tables as they were,
but for those it lost. Its moves are strict when it is called in a guarded state and `ok`. -/
def Keeps (ok : Prop) (m : Machine) (d : Set Ptr) (m' : Machine) (d' : Set Ptr) : Prop :=
  ∀ (strict : Prop) (x : Ptr → Nat), (strict → ok ∧ Guarded m d) → Ledger m d x →
    Settles strict ⟨m, d, x⟩ m' d' x

namespace Keeps
variable {ok ok' : Prop} {m m' m'' : Machine} {d d' d'' : Set Ptr} {x : Ptr → Nat}

theorem ledger (h : Keeps ok m d m' d') (hl : Ledger m d x) : ∃ x', Ledger m' d' x' ∧
    (x' = x ∨ m.events.leaks < m'.events.leaks) := by
  obtain ⟨x', hm, he⟩ := h False x False.elim hl
  exact ⟨x', hm.ledger hl, he⟩

end Keeps

section Calls
variable {ok strict : Prop} {d : Set Ptr} {x : Ptr → Nat} {m m' : Machine} {pd p : Ptr}
  {virt flags : BitVec 64} (hpd : pd ∈ d) (hv : (Vpn.of virt).User)
include hpd hv

/-- A library's frame is mapped read-only. -/
theorem mapPageRo_keeps {master : Ptr} (hframe : IsFrame master) (hpin : m.pinned master = true)
    (exec : Bool) : Keeps ok m d (m.mapPageRo pd master virt exec) d := by
  intro strict x _ hl
  have hw : Walked strict d x m pd _ _ := walkTo_grows hl hpd hv descend_grows
  rw [mapPageRo, ptePtr]
  cases hr : walk (descend · true) [index virt 39, index virt 30, index virt 21] m pd with
  | mk m1 pt =>
    rw [hr] at hw
    cases pt with
    | none => exact .of_moves hw.moves
    | some t =>
      have hpin' : m1.pinned master = true := by rw [hw.grown.pinned, hpin]
      have hfe := roLeaf_frame hframe exec
      have hhas := @roLeaf_has master hframe exec
      have hguards : m1.Guards (roLeaf master exec) := by
        intro _
        rw [hhas (by decide) (by decide), hhas (by decide) (by decide)]
        exact ⟨fun hx => absurd hx (by decide), fun hx => absurd hx (by decide)⟩
      obtain ⟨x', hm, hend⟩ := setLeaf_settles strict (hw.moves.ledger hl) hpd (hw.found t rfl)
        (e := roLeaf master exec) (by rw [hhas (by decide) (by decide)]; decide)
        (by rw [hhas (by decide) (by decide)]; decide) (by rw [hfe]; exact hframe)
        (.inl (by rw [hfe, hpin'])) (fun _ => hguards)
      rw [hfe] at hend
      rcases hend with rfl | hlt
      · refine .of_moves ((hw.moves.trans hm).tail (.forget fun f hf => ?_))
        have hne : f ≠ master := by
          rintro rfl
          exact Bool.false_ne_true (hf.symm.trans hpin')
        rw [drop, update_of_ne hne]
      · exact ⟨x', hw.moves.trans hm, .inr (lt_of_le_of_lt (hw.moves.events hl).leaks hlt)⟩

end Calls

/-! ### Page directories -/

/-- `m'` is `m` with a new, empty address space `q`. -/
structure Opened (d : Set Ptr) (m m' : Machine) (q : Ptr) : Prop where
  frame : IsFrame q
  unused : m.refs q = 0
  new : q ∉ d
  frameAt : ∀ pd ∈ d, m'.frameAt pd = m.frameAt pd
  leaf : ∀ pd ∈ d, ∀ v, m'.leaf pd v = m.leaf pd v
  empty : ∀ v, m'.leaf q v = 0#64
  spares : Spares d (insert q d) m m'
  pinned : m'.pinned = m.pinned
  events : m'.events = m.events

variable {x : Ptr → Nat}

/-- A page just taken, with nothing but the kernel's half in it, is an address space. -/
theorem opened_of_took {d : Set Ptr} {m m' : Machine} {q : Ptr} {page : BitVec 9 → BitVec 64}
    (h : Ledger m d x) (ht : m.Took m' q) (hz : ∀ j, j ≠ higher → page j = 0#64) :
    Opened d m (m'.fill q page) q ∧
      ∀ strict : Prop, Moves strict ⟨m, d, x⟩ ⟨m'.fill q page, insert q d, x⟩ := by
  have hfresh := Fresh.of_took h ht
  have hl' := h.took ht
  have hnot := hfresh.not_table hl'
  have hl := hl'.fill hnot page
  have hzero : ∀ j, j ≠ higher → (m'.fill q page).word q j = 0#64 := fun j hj => by
    rw [fill_self, hz j hj]
  have hword : ∀ f, m'.IsTable d f → (m'.fill q page).word f = m'.word f := fun f hf =>
    fill_ne fun he : f = q => hnot (he ▸ hf)
  have hnew := hl.not_dir hfresh.frame hfresh.refs hfresh.extra hfresh.unpinned
  have hspares : Spares d d m (m'.fill q page) :=
    (Spares.of_took ht).fill ht.fresh hfresh.held hnot page
  refine ⟨?_, fun strict => ?_⟩
  · constructor
    case frame => exact ht.frame
    case unused => exact ht.fresh
    case new => exact hnew
    case frameAt =>
      intro pd hpd
      rw [Ledger.frameAt_eq hword hpd]
      exact frameAt_congr fun _ _ _ _ => by rw [ht.word]
    case leaf =>
      intro pd hpd v
      rw [Ledger.leaf_eq_of_word hword hpd v, leaf_of_word ht.word]
    case empty =>
      intro v
      rw [leaf, Ledger.frameAt_empty hzero, if_neg (by simp [Vpn.table])]
    case spares =>
      refine ⟨fun f hf hr hnt => ?_, hspares.free⟩
      obtain ⟨h1, h2, h3, h4⟩ := hspares.page f hf hr hnt
      refine ⟨h1, h2, h3, ?_⟩
      rintro ⟨pd, rfl | hpd, path, hlen, hat⟩
      · rw [Ledger.frameAt_empty hzero] at hat
        obtain ⟨_, heq⟩ := Option.ite_none_right_eq_some.mp hat
        exact hr (Option.some.inj heq ▸ ht.fresh)
      · exact h4 ⟨pd, hpd, path, hlen, hat⟩
    case pinned => exact ht.pinned
    case events => exact ht.events
  · have hmoves : Moves strict ⟨m, d, x⟩ ⟨m'.fill q page, insert q d, drop (bump x q) q⟩ :=
      .tail (.tail (.single (.take ht)) (.fill page hnot))
        (.enter hfresh.frame hfresh.refs hfresh.extra hfresh.unpinned hzero)
    rwa [drop_bump] at hmoves

theorem allocPageDirectory_cases {d : Set Ptr} {m : Machine} (h : Ledger m d x) :
    m.allocPageDirectory.2 = 0#64 ∧ m.Refused m.allocPageDirectory.1 ∨
      Opened d m m.allocPageDirectory.1 m.allocPageDirectory.2 ∧ ∀ strict : Prop,
        Moves strict ⟨m, d, x⟩ ⟨m.allocPageDirectory.1, insert m.allocPageDirectory.2 d, x⟩ := by
  rcases allocPage_cases h.sound with ⟨hnull, href⟩ | htook
  · left
    rw [allocPageDirectory]
    simp only [hnull, if_true]
    exact ⟨trivial, href⟩
  right
  have hstore : ∀ (m' : Machine) (q : Ptr) (e : BitVec 64),
      (m'.fill q fun _ => 0#64).store q higher e =
        m'.fill q (update (fun _ => 0#64) higher e) := by
    intro m' q e
    simp [store, Machine.fill]
  rw [allocPageDirectory]
  simp only [htook.frame.ne_zero, if_false]
  split
  · rw [show BitVec.ofNat 9 pml4Higher = higher from rfl, hstore]
    exact opened_of_took h htook fun j hj => by rw [update_of_ne hj]
  · exact opened_of_took h htook fun _ _ => rfl

end Nyx.Paging
