import Nyx.Paging.Growth
import Nyx.Paging.Teardown

/-! The moves user memory is made of.

Every call of the paging code is a sequence of a few moves: a frame is taken or given back,
a table is linked, a leaf is put in, taken out or given other flags, an address space is
opened or closed. A move carries what must hold when it is made. What each move keeps, every
call keeps: the account balances (`Moves.ledger`), events only go up (`Moves.events`), and no
page that can be written is shared (`Moves.guarded`). -/
namespace Nyx.Paging
open Lib Machine

/-- A machine, its address spaces, and the references held outside the tables. -/
structure Account where
  machine : Machine
  dirs : Set Ptr
  extra : Ptr → Nat

def Account.Balanced (a : Account) : Prop := Ledger a.machine a.dirs a.extra

/-! ### Events -/

structure Events.Le (ev ev' : Events) : Prop where
  nulls : ev.nulls ≤ ev'.nulls
  saturations : ev.saturations ≤ ev'.saturations
  unmapped : ev.unmapped ≤ ev'.unmapped
  replaced : ev.replaced ≤ ev'.replaced
  orphans : ev.orphans ≤ ev'.orphans

namespace Events.Le
variable {ev ev' ev'' : Events}

theorem refl (ev : Events) : ev.Le ev :=
  ⟨Nat.le_refl _, Nat.le_refl _, Nat.le_refl _, Nat.le_refl _, Nat.le_refl _⟩

theorem of_eq (h : ev' = ev) : ev.Le ev' := h ▸ refl ev'

theorem trans (h : ev.Le ev') (h' : ev'.Le ev'') : ev.Le ev'' :=
  ⟨h.nulls.trans h'.nulls, h.saturations.trans h'.saturations, h.unmapped.trans h'.unmapped,
    h.replaced.trans h'.replaced, h.orphans.trans h'.orphans⟩

theorem null (ev : Events) (b : Bool) : ev.Le (ev.null b) :=
  {refl ev with nulls := Nat.le_add_right _ _}

theorem saturate (ev : Events) (b : Bool) : ev.Le (ev.saturate b) :=
  {refl ev with saturations := Nat.le_add_right _ _}

theorem unmap (ev : Events) : ev.Le ev.unmap := {refl ev with unmapped := Nat.le_add_right _ _}

theorem replace (ev : Events) (b : Bool) : ev.Le (ev.replace b) :=
  {refl ev with replaced := Nat.le_add_right _ _}

end Events.Le

/-! ### Shared pages -/

variable (m : Machine)

/-- A leaf entry through which a page can be written maps a frame of its own, and one whose
page will be copied first maps no library's frame. -/
def Machine.Guards (e : BitVec 64) : Prop :=
  has e pagePresent = true → (has e pageWritable = true → m.refs (frameOf e) = 1) ∧
      (has e pageWritable = true ∨ has e pteCow = true → m.pinned (frameOf e) = false)

def Guarded (dirs : Set Ptr) : Prop := ∀ pd ∈ dirs, ∀ v, m.Guards (m.leaf pd v)

/-- No page of `dirs` can be written through an entry that maps `p`. -/
def Machine.Unwritable (dirs : Set Ptr) (p : Ptr) : Prop :=
  ∀ pd ∈ dirs, ∀ v, has (m.leaf pd v) pagePresent = true → has (m.leaf pd v) pageWritable = true →
    frameOf (m.leaf pd v) ≠ p

/-! ### The moves -/

/-- A move that is `strict` leaves no writable page shared. -/
inductive Move (strict : Prop) : Account → Account → Prop where
  | quiet {m m' d x} (hf : m'.frames = m.frames) (hw : m'.word = m.word)
      (hev : m.events.Le m'.events) : Move strict ⟨m, d, x⟩ ⟨m', d, x⟩
  /-- Nobody counts the references to a pinned frame. -/
  | forget {m d x x'} (hx : ∀ f, m.pinned f = false → x' f = x f) : Move strict ⟨m, d, x⟩ ⟨m, d, x'⟩
  | take {m m' d x p} (ht : m.Took m' p) : Move strict ⟨m, d, x⟩ ⟨m', d, bump x p⟩
  | fill {m d x p} (page : BitVec 9 → BitVec 64) (hp : ¬ m.IsTable d p) :
      Move strict ⟨m, d, x⟩ ⟨m.fill p page, d, x⟩
  | table {m m' d x pd t q i} {p : List (BitVec 9)} (hpd : pd ∈ d) (hlen : p.length < 3)
      (ht : m.frameAt pd p = some t) (hi : p = [] → i ≠ higher) (hz : m.word t i = 0#64)
      (hq : m.Took m' q) :
      Move strict ⟨m, d, x⟩ ⟨(m'.fill q fun _ => 0#64).store t i (link q), d, x⟩
  | put {m d x pd t e} {v : Vpn} (hpd : pd ∈ d) (ht : m.frameAt pd v.table = some t)
      (hempty : has (m.word t v.l) pagePresent = false) (hpres : has e pagePresent = true)
      (huser : has e pageUser = true) (hframe : IsFrame (frameOf e))
      (hex : m.pinned (frameOf e) = true ∨ x (frameOf e) ≠ 0) (hg : strict → m.Guards e) :
      Move strict ⟨m, d, x⟩ ⟨m.store t v.l e, d, drop x (frameOf e)⟩
  | clear {m d x pd t} {v : Vpn} (hpd : pd ∈ d) (ht : m.frameAt pd v.table = some t) :
      Move strict ⟨m, d, x⟩ ⟨m.store t v.l 0#64, d,
        if has (m.word t v.l) pagePresent then bump x (frameOf (m.word t v.l)) else x⟩
  | reflag {m d x pd t e} {v : Vpn} (hpd : pd ∈ d) (ht : m.frameAt pd v.table = some t)
      (hold : has (m.word t v.l) pagePresent = true)
      (hsame : frameOf e = frameOf (m.word t v.l)) (hpres : has e pagePresent = true)
      (huser : has e pageUser = true) (hg : strict → m.Guards e) :
      Move strict ⟨m, d, x⟩ ⟨m.store t v.l e, d, x⟩
  | incref {m d x p} (hp : IsFrame p) (hr : m.refs p ≠ 0) (ht : ¬ m.IsTable d p)
      (hroom : m.pinned p = true ∨ m.refs p < 255) (hg : strict → m.Unwritable d p) :
      Move strict ⟨m, d, x⟩ ⟨m.pageIncref p, d, bump x p⟩
  | free {m d x p} (hp : IsFrame p) (hex : m.pinned p = true ∨ x p ≠ 0) :
      Move strict ⟨m, d, x⟩ ⟨m.freePage p, d, drop x p⟩
  | pin {m d x p} (hp : IsFrame p) (hr : m.refs p = 1) (hex : x p = 1)
      (hpin : m.pinned p = false) : Move strict ⟨m, d, x⟩ ⟨m.pagePin p, d, x⟩
  | enter {m d x q} (hq : IsFrame q) (hr : m.refs q = 1) (hex : x q = 1)
      (hpin : m.pinned q = false) (hz : ∀ j, j ≠ higher → m.word q j = 0#64) :
      Move strict ⟨m, d, x⟩ ⟨m, insert q d, drop x q⟩
  | leave {m d x pd} (hpd : pd ∈ d) : Move strict ⟨m, d, x⟩ ⟨m.freePageDirectory pd, d \ {pd}, x⟩

abbrev Moves (strict : Prop) : Account → Account → Prop := Relation.ReflTransGen (Move strict)

namespace Ledger
variable {m m' : Machine} {dirs : Set Ptr} {extra extra' : Ptr → Nat} {pd f : Ptr} {v : Vpn}

/-- The account of the frames that are counted. -/
theorem forget (h : Ledger m dirs extra) (hx : ∀ f, m.pinned f = false → extra' f = extra f) :
    Ledger m dirs extra' :=
  {h with counted := fun f hf hpin => by rw [hx f hpin]; exact h.counted f hf hpin}

theorem mapped (h : Ledger m dirs extra) (hpd : pd ∈ dirs)
    (hpres : has (m.leaf pd v) pagePresent = true) :
    m.frameAt pd v.path = some (frameOf (m.leaf pd v)) ∧ IsFrame (frameOf (m.leaf pd v)) ∧
      m.refs (frameOf (m.leaf pd v)) ≠ 0 := by
  have hat : m.frameAt pd v.path = some (frameOf (m.leaf pd v)) := by
    rw [m.frameAt_path, if_pos hpres]
  exact ⟨hat, h.frame hpd hat, h.held hpd hat⟩

/-- A page with a place of its own in the tables has no reference elsewhere. -/
theorem extra_of_sole (h : Ledger m dirs extra) (hpd : pd ∈ dirs) {path : List (BitVec 9)}
    (hf : m.frameAt pd path = some f) (hone : m.refs f = 1) (hpin : m.pinned f = false) :
    extra f = 0 ∧ ∀ x ∈ m.holders dirs f, x = (pd, path) := by
  have hcount := h.counted f (h.frame hpd hf) hpin
  have hmem : (pd, path) ∈ m.holders dirs f := ⟨hpd, hf⟩
  rw [hone, ← Set.encard_sdiff_singleton_add_one hmem, add_assoc,
    add_comm (1 : ℕ∞), ← add_assoc, Nat.cast_one] at hcount
  have hzero : (m.holders dirs f \ {(pd, path)}).encard + (extra f : ℕ∞) = 0 :=
    (ENat.add_left_injective_of_ne_top (ENat.natCast_ne_top 1)) (hcount.trans (zero_add _).symm)
  rw [add_eq_zero] at hzero
  refine ⟨by exact_mod_cast hzero.2, fun x hx => ?_⟩
  by_contra hne
  have hempty := Set.encard_eq_zero.mp hzero.1
  exact absurd (show x ∈ m.holders dirs f \ {(pd, path)} from ⟨hx, hne⟩) (by rw [hempty]; exact id)

end Ledger

/-! ### What every move keeps -/

section
variable {strict : Prop} {a b : Account} (hm : Move strict a b) (h : a.Balanced)
include hm h

theorem Move.ledger : b.Balanced := by
  replace h : Ledger a.machine a.dirs a.extra := h
  cases hm with
  | quiet hf hw _ => exact h.congr hf hw
  | forget hx => exact h.forget hx
  | take ht => exact h.took ht
  | fill page hp => exact h.fill hp page
  | table hpd hlen ht hi hz hq => exact (h.newTable hpd hlen ht hi hz hq).1
  | put hpd ht hempty hpres huser hframe hex _ =>
    exact h.place hpd ht _ hempty hpres huser hframe hex
  | clear hpd ht => exact h.clear hpd ht
  | reflag hpd ht hold hsame hpres huser _ => exact h.reflag hpd ht _ hold hsame hpres huser
  | incref hp hr ht hroom _ => exact h.incref hp hr ht hroom
  | free hp hex => exact h.free hp (h.refs_of_extra hp hex) hex
  | pin hp hr hex _ =>
    have hne : _ ≠ 0 := ne_of_eq_of_ne hex Nat.one_ne_zero
    exact h.pin hp (ne_of_eq_of_ne hr Nat.one_ne_zero) (h.not_table (.inr hne))
  | enter hq hr hex hpin hz => exact h.directory hq hr hex hpin hz
  | leave hpd => exact h.freePageDirectory hpd

theorem Move.events : a.machine.events.Le b.machine.events := by
  cases hm with
  | quiet _ _ hev => exact hev
  | take ht => exact .of_eq ht.events
  | table _ _ _ _ _ hq => exact .of_eq hq.events
  | incref => exact .saturate _ _
  | leave hpd =>
    replace h : Ledger _ _ _ := h
    exact .of_eq (by rw [h.freePageDirectory_eq hpd, freeAll_events])
  | _ => exact .refl _

/-- The page allocator's own books stay coherent with what was free at boot. -/
theorem Move.coherent {boot : Memory.Frames} (hb : Memory.Coherent boot a.machine.frames) :
    Memory.Coherent boot b.machine.frames := by
  replace h : Ledger a.machine a.dirs a.extra := h
  cases hm with
  | quiet hf _ _ => rwa [← hf] at hb
  | take ht => exact ht.coherent boot hb
  | table _ _ _ _ _ hq => exact hq.coherent boot hb
  | incref _ hr _ _ _ => exact Memory.coherent_incref hb _ (refcount_ne_zero hr)
  | free hp hex => exact Memory.coherent_free hb _ (refcount_ne_zero (h.refs_of_extra hp hex))
  | pin => exact Memory.coherent_pin hb _
  | @leave m d x pd hpd =>
    show Memory.Coherent boot (m.freePageDirectory pd).frames
    rw [h.freePageDirectory_eq hpd]
    exact (h.detach hpd).coherent_freeAll _ (fun _ => h.frame_of_subtree hpd)
      (fun _ _ => Nat.le_add_left _ _) hb
  | _ => exact hb

end

namespace Guarded
variable {m m' : Machine} {dirs : Set Ptr} {extra : Ptr → Nat}

section
variable (hg : Guarded m dirs) (h : Ledger m dirs extra)
include hg h

/-- Changes that leave the leaves and the frames in use alone. -/
theorem congr (hleaf : ∀ pd ∈ dirs, ∀ v, m'.leaf pd v = m.leaf pd v)
    (hrefs : ∀ f, IsFrame f → m.refs f ≠ 0 → m'.refs f = m.refs f) (hpin : m'.pinned = m.pinned) :
    Guarded m' dirs := by
  intro pd hpd v hpres
  rw [hleaf pd hpd] at hpres ⊢
  obtain ⟨_, hframe, hheld⟩ := h.mapped hpd hpres
  rw [hrefs _ hframe hheld, hpin]
  exact hg pd hpd v hpres

theorem store {pd t : Ptr} {v : Vpn} {e : BitVec 64} (hpd : pd ∈ dirs)
    (ht : m.frameAt pd v.table = some t) (he : m.Guards e) : Guarded (m.store t v.l e) dirs := by
  intro pd' hpd' v'
  rw [h.leaf_storeLeaf hpd ht e hpd']
  by_cases hx : pd' = pd ∧ v' = v
  · rw [if_pos hx]
    exact he
  rw [if_neg hx]
  exact hg pd' hpd' v'

/-- A frame with a reference outside the tables cannot be written through them. -/
theorem unwritable {p : Ptr} (hex : m.pinned p = true ∨ extra p ≠ 0) : m.Unwritable dirs p := by
  rintro pd hpd v hpres hw rfl
  obtain ⟨hone, hpin⟩ := hg pd hpd v hpres
  have hunp := hpin (.inl hw)
  obtain ⟨hat, _, _⟩ := h.mapped hpd hpres
  have hzero := (h.extra_of_sole hpd hat (hone hw) hunp).1
  exact hex.elim (fun hp => absurd hunp (by rw [hp]; decide)) (fun hx => hx hzero)

end

end Guarded

theorem Machine.leaf_of_word {m m' : Machine} (hw : m'.word = m.word) (pd : Ptr) (v : Vpn) :
    m'.leaf pd v = m.leaf pd v := by
  rw [leaf, leaf, frameAt_congr (m := m) fun _ _ _ _ => by rw [hw], hw]

theorem Machine.guards_zero (m : Machine) : m.Guards 0#64 := by
  intro hpres
  rw [has_zero] at hpres
  exact absurd hpres Bool.false_ne_true

/-- Changing the counter of a frame that cannot be written. -/
theorem Guarded.recount {m m' : Machine} {dirs : Set Ptr} {extra : Ptr → Nat} {p : Ptr}
    (hg : Guarded m dirs) (h : Ledger m dirs extra) (hu : m.Unwritable dirs p)
    (hw : m'.word = m.word) (hpin : m'.pinned = m.pinned)
    (hrefs : ∀ f, IsFrame f → f ≠ p → m'.refs f = m.refs f) : Guarded m' dirs := by
  intro pd hpd v hpres
  rw [leaf_of_word hw] at hpres ⊢
  rw [hpin]
  refine ⟨fun hwr => ?_, (hg pd hpd v hpres).2⟩
  rw [hrefs _ (h.mapped hpd hpres).2.1 (hu pd hpd v hpres hwr)]
  exact (hg pd hpd v hpres).1 hwr

theorem Move.guarded {strict : Prop} {a b : Account} (hm : Move strict a b) (hs : strict)
    (h : a.Balanced) (hg : Guarded a.machine a.dirs) : Guarded b.machine b.dirs := by
  replace h : Ledger a.machine a.dirs a.extra := h
  cases hm with
  | @quiet m m' d x hf hw _ =>
    have hrefs : m'.refs = m.refs := by
      funext p
      rw [Machine.refs, refcount, hf, Machine.refs, refcount]
    have hpin : m'.pinned = m.pinned := by
      funext p
      rw [Machine.pinned, hf, Machine.pinned]
    exact hg.congr h (fun _ _ _ => leaf_of_word hw _ _) (fun _ _ _ => by rw [hrefs]) hpin
  | forget => exact hg
  | @take m m' d x p ht =>
    refine hg.congr h (fun _ _ _ => leaf_of_word ht.word _ _) ?_ ht.pinned
    intro f hf hr
    rw [ht.refs f hf, if_neg]
    rintro rfl
    exact hr ht.fresh
  | @fill m d x p page hp =>
    have hword : ∀ f, m.IsTable d f → (m.fill p page).word f = m.word f := fun f hf =>
      fill_ne fun he : f = p => hp (he ▸ hf)
    exact hg.congr h (fun _ hpd v => Ledger.leaf_eq_of_word hword hpd v) (fun _ _ _ => rfl) rfl
  | table hpd hlen ht hi hz hq =>
    obtain ⟨_, hgrown, _⟩ := h.newTable hpd hlen ht hi hz hq
    exact hg.congr h hgrown.leaf hgrown.refs hgrown.pinned
  | put hpd ht _ _ _ _ _ he => exact hg.store h hpd ht (he hs)
  | @clear m d x pd t v hpd ht => exact hg.store h hpd ht m.guards_zero
  | reflag hpd ht _ _ _ _ he => exact hg.store h hpd ht (he hs)
  | @incref m d x p hp hr ht hroom hu =>
    refine hg.recount h (hu hs) rfl pageIncref_pinned fun f hf hne => ?_
    rw [refs_pageIncref h.sound hp hr hf, if_neg fun hx => hne hx.1]
  | free hp hex =>
    exact hg.recount h (hg.unwritable h hex) rfl freePage_pinned fun f hf hne =>
      refs_freePage_ne hp hf hne
  | @pin m d x p hp hr hex hpin =>
    intro pd hpd v hpres
    rw [leaf_of_word pagePin_word] at hpres ⊢
    obtain ⟨hat, hframe, _⟩ := h.mapped hpd hpres
    have hne : frameOf (m.leaf pd v) ≠ p := fun he =>
      h.not_held hp hr hex hpin hpd (he ▸ hat)
    rw [pagePin_refs, pagePin_pinned hp hframe, decide_eq_false hne, Bool.or_false]
    exact hg pd hpd v hpres
  | @enter m d x q hq hr hex hpin hz =>
    rintro pd (rfl | hpd) v
    · have hleaf : m.leaf pd v = 0#64 := by
        rw [Machine.leaf, Ledger.frameAt_empty hz, if_neg (by simp [Vpn.table])]
      show m.Guards (m.leaf pd v)
      rw [hleaf]
      exact m.guards_zero
    · exact hg pd hpd v
  | @leave m d x pd hpd =>
    have heq := h.freePageDirectory_eq hpd
    have hafter := h.freePageDirectory hpd
    intro pd' hpd' v hpres
    have hleaf : (m.freePageDirectory pd).leaf pd' v = m.leaf pd' v := by
      rw [heq, freeAll_leaf]
    have hpinned : (m.freePageDirectory pd).pinned = m.pinned := by
      rw [heq, freeAll_pinned]
    have hheld := hafter.mapped hpd' hpres
    rw [hleaf] at hpres hheld ⊢
    obtain ⟨hone, hunp⟩ := hg pd' hpd'.1 v hpres
    refine ⟨fun hw => ?_, by rw [hpinned]; exact hunp⟩
    have hle := h.refs_freePageDirectory hpd hheld.2.1 (hunp (.inl hw))
    rw [hone hw] at hle
    exact Nat.le_antisymm hle (Nat.one_le_iff_ne_zero.mpr hheld.2.2)

namespace Moves
variable {strict : Prop} {a b c : Account}

section
variable (hm : Moves strict a b) (h : a.Balanced)
include hm h

theorem ledger : b.Balanced := by
  induction hm with
  | refl => exact h
  | tail _ hmove ih => exact hmove.ledger ih

theorem events : a.machine.events.Le b.machine.events := by
  induction hm with
  | refl => exact .refl _
  | tail hrun hmove ih => exact ih.trans (hmove.events (ledger hrun h))

theorem coherent {boot : Memory.Frames} (hb : Memory.Coherent boot a.machine.frames) :
    Memory.Coherent boot b.machine.frames := by
  induction hm with
  | refl => exact hb
  | tail hrun hmove ih => exact hmove.coherent (ledger hrun h) ih

end

theorem guarded (hm : Moves strict a b) (hs : strict) (h : a.Balanced)
    (hg : Guarded a.machine a.dirs) : Guarded b.machine b.dirs := by
  induction hm with
  | refl => exact hg
  | tail hrun hmove ih => exact hmove.guarded hs (ledger hrun h) ih

end Moves

end Nyx.Paging
