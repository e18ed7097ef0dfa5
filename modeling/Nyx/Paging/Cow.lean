import Nyx.Paging.Mapping

/-! Sharing pages.

Pages that a fork has shared have the same entry in parent and child, and it cannot be
written (`Cloned`). Sharing one page more is a few moves (`Cloned.step`). -/
namespace Nyx.Paging
open Lib Machine Vpn

/-! ### Addresses of pages -/

theorem index_pageAddr (a b c d : BitVec 9) :
    index (pageAddr a b c d) 39 = a ∧ index (pageAddr a b c d) 30 = b ∧
      index (pageAddr a b c d) 21 = c ∧ index (pageAddr a b c d) 12 = d := by
  refine ⟨?_, ?_, ?_, ?_⟩
  all_goals
    apply BitVec.eq_of_getLsbD_eq
    intro n hn
    simp only [index, pageAddr, BitVec.getLsbD_extractLsb', BitVec.getLsbD_or,
      BitVec.getLsbD_shiftLeft, BitVec.getLsbD_setWidth]
    grind

theorem Vpn.path_injective : Function.Injective path := by
  rintro ⟨i, j, k, l⟩ ⟨i', j', k', l'⟩ h
  simp only [path, table, List.cons.injEq, and_true] at h
  obtain ⟨rfl, rfl, rfl, rfl⟩ := h
  rfl

/-! ### Shared entries -/

section Share
variable (e : BitVec 64)

@[simp] theorem shareEntry_zero : shareEntry 0#64 = 0#64 := by
  rw [shareEntry, has_zero]
  rfl

@[simp] theorem frameOf_shareEntry : frameOf (shareEntry e) = frameOf e := by
  rw [shareEntry]
  split
  · rw [frameOf_lor, frameOf_land, show ~~~pageWritable &&& pteAddrMask = pteAddrMask by decide,
      show frameOf pteCow = 0#64 by decide, BitVec.or_zero]
    rfl
  · rfl

/-- The flags beside the two that sharing is about. -/
theorem has_shareEntry {flag : BitVec 64} (hw : ~~~pageWritable &&& flag = flag)
    (hc : has pteCow flag = false) : has (shareEntry e) flag = has e flag := by
  rw [shareEntry]
  split
  · rw [has_lor, has_land, hw, hc, Bool.or_false]
  · rfl

@[simp] theorem shareEntry_present : has (shareEntry e) pagePresent = has e pagePresent :=
  has_shareEntry e (by decide) (by decide)

@[simp] theorem shareEntry_user : has (shareEntry e) pageUser = has e pageUser :=
  has_shareEntry e (by decide) (by decide)

@[simp] theorem shareEntry_writable : has (shareEntry e) pageWritable = false := by
  rw [shareEntry]
  split
  case isTrue =>
    rw [has_lor, has_land, show ~~~pageWritable &&& pageWritable = 0#64 by decide, has_none]
    decide
  case isFalse h => exact Bool.eq_false_iff.mpr h

@[simp] theorem shareEntry_cow :
    has (shareEntry e) pteCow = (has e pageWritable || has e pteCow) := by
  rw [shareEntry]
  split
  case isTrue h =>
    rw [has_lor, h, show has pteCow pteCow = true by decide, Bool.or_true, Bool.true_or]
  case isFalse h => rw [Bool.eq_false_iff.mpr h, Bool.false_or]

end Share

theorem Machine.store_word (m : Machine) (t : Ptr) (i : BitVec 9) : m.store t i (m.word t i) = m := by
  rw [Machine.store, Function.update_eq_self, Function.update_eq_self]

variable {x : Ptr → Nat} {m : Machine} {d : Set Ptr} {v : Vpn}

theorem Ledger.leaf_vacant {pd : Ptr} (h : Ledger m d x) (hpd : pd ∈ d)
    (hv : has (m.leaf pd v) pagePresent = false) : m.leaf pd v = 0#64 := by
  cases ht : m.frameAt pd v.table with
  | none => rw [Machine.leaf, ht]
  | some t =>
    rw [leaf_eq ht] at hv ⊢
    exact h.vacant pd hpd v.table t v.l rfl ht hv

/-- A page that one entry maps read-only can be written through none. -/
theorem Guarded.unwritable_of_readonly {pd : Ptr} (hg : Guarded m d) (hl : Ledger m d x)
    (hpd : pd ∈ d) (hpres : has (m.leaf pd v) pagePresent = true)
    (hro : has (m.leaf pd v) pageWritable = false) : m.Unwritable d (frameOf (m.leaf pd v)) := by
  intro pd' hd v' hp' hw' hsame
  obtain ⟨hone, hpin⟩ := hg pd' hd v' hp'
  have hsole := (hl.extra_of_sole hd (hl.mapped hd hp').1 (hone hw') (hpin (.inl hw'))).2
  have hplace := hsole (pd, v.path) ⟨hpd, hsame.symm ▸ (hl.mapped hpd hpres).1⟩
  obtain ⟨rfl, hpath⟩ := Prod.mk.inj hplace
  obtain rfl := path_injective hpath
  rw [hro] at hw'
  exact Bool.false_ne_true hw'

/-- The account after a leaf of the parent was made read-only. -/
theorem Ledger.unshare {pd pt : Ptr} (h : Ledger m d x) (hpd : pd ∈ d)
    (hpt : m.frameAt pd v.table = some pt) (hpres : has (m.leaf pd v) pagePresent = true) :
    Ledger (m.store pt v.l (shareEntry (m.leaf pd v))) d x := by
  have hword := leaf_eq hpt
  rw [hword] at hpres ⊢
  refine h.reflag hpd hpt _ hpres (frameOf_shareEntry _) (by rwa [shareEntry_present]) ?_
  rw [shareEntry_user]
  exact (h.leaves pd hpd v.table pt v.l rfl hpt hpres).2

/-! ### Tables made for another address space -/

section Aside
variable {m : Machine} {d : Set Ptr} {x : Ptr → Nat} {pd other t : Ptr} {p : List (BitVec 9)}

theorem descend_word {f : Ptr} {i : BitVec 9} (h : m.Sound) (hr : m.refs f ≠ 0) (hne : f ≠ t) :
    (m.descend true t i).1.word f = m.word f := by
  rw [Machine.descend]
  split
  · rfl
  split
  · rfl
  rcases allocPage_cases h with ⟨hnull, href⟩ | htook
  · simp only [hnull, if_true, href.word]
  have hfresh : f ≠ m.allocPage.2 := by
    rintro rfl
    exact hr htook.fresh
  simp only [htook.frame.ne_zero, if_false, if_true]
  rw [store_page_ne hne, fill_ne hfresh, htook.word]

theorem descend_aside (h : Ledger m d x) (hpd : pd ∈ d) (ho : other ∈ d) (hne : other ≠ pd)
    (hlen : p.length ≤ 3) (ht : m.frameAt pd p = some t) (i : BitVec 9) :
    (m.descend true t i).1.frameAt other = m.frameAt other := by
  refine frameAt_congr fun path q _ hq => descend_word h.sound (h.held ho hq) ?_
  rintro rfl
  exact hne (h.table_place hpd ho hlen ht hq).1

theorem walk_aside (is : List (BitVec 9)) :
    ∀ {m : Machine} {t : Ptr} {p : List (BitVec 9)}, Ledger m d x → pd ∈ d → other ∈ d →
      other ≠ pd → p.length + is.length ≤ 3 → m.frameAt pd p = some t →
      (p = [] → ∀ i ∈ is.head?, i ≠ higher) →
      (Machine.walk (Machine.descend · true) is m t).1.frameAt other = m.frameAt other := by
  induction is with
  | nil => exact fun _ _ _ _ _ _ _ => rfl
  | cons i rest ih =>
    intro m t p h hpd ho hne hlen ht hi
    rw [List.length_cons] at hlen
    have haside := descend_aside h hpd ho hne (by omega) ht i
    have hw : Walked True d x m pd (i :: p) (m.descend true t i) :=
      descend_grows m pd t p i h hpd (by omega) ht (fun hp => hi hp i rfl)
    rw [Machine.walk]
    cases hr : m.descend true t i with
    | mk m' n =>
      rw [hr] at haside hw
      cases n with
      | none => exact haside
      | some next =>
        refine Eq.trans ?_ haside
        exact ih (p := i :: p) (hw.moves.ledger h) hpd ho hne (by rw [List.length_cons]; omega)
          (hw.found next rfl) (fun hp => absurd hp (by simp))

end Aside

/-! ### Pages already shared -/

/-- `m` is `m₀` after the pages `D` of `parent` were shared with `child`. -/
structure Cloned (strict : Prop) (d : Set Ptr) (x : Ptr → Nat) (parent child : Ptr) (m₀ : Machine)
    (D : Set Vpn) (m : Machine) : Prop where
  moves : Moves strict ⟨m₀, d, x⟩ ⟨m, d, x⟩
  shared : ∀ v ∈ D, m.leaf parent v = shareEntry (m₀.leaf parent v) ∧
    m.leaf child v = shareEntry (m₀.leaf parent v)
  rest : ∀ v ∉ D, m.leaf parent v = m₀.leaf parent v ∧ m.leaf child v = 0#64
  others : ∀ pd ∈ d, pd ≠ parent → pd ≠ child → ∀ v, m.leaf pd v = m₀.leaf pd v
  tables : ∀ pd ∈ d, pd ≠ child → ∀ path : List (BitVec 9), path.length ≤ 3 →
    m.frameAt pd path = m₀.frameAt pd path
  page : ∀ f, IsFrame f → m₀.refs f ≠ 0 → ¬ m₀.IsTable d f →
    m.word f = m₀.word f ∧ m₀.refs f ≤ m.refs f ∧ ¬ m.IsTable d f
  free : ∀ f, IsFrame f → m.refs f = 0 → m₀.refs f = 0 ∧ m.word f = m₀.word f
  pinned : m.pinned = m₀.pinned
  leaks : m.events.leaks = m₀.events.leaks
  /-- A counter counts the pages shared until it is full. -/
  counts : ∀ f, IsFrame f → m₀.refs f ≠ 0 → ¬ m₀.IsTable d f →
    (m.refs f : ℕ∞) =
      min 255 (m₀.refs f + {v | v ∈ D ∧ m₀.frameAt parent v.path = some f}.encard)

namespace Cloned
variable {strict : Prop} {d : Set Ptr} {x : Ptr → Nat} {parent child : Ptr} {m₀ m m' : Machine}
  {D : Set Vpn}

theorem start (hempty : ∀ v, m₀.leaf child v = 0#64) : Cloned strict d x parent child m₀ ∅ m₀ where
  moves := .refl
  shared _ hv := absurd hv (Set.notMem_empty _)
  rest v _ := ⟨rfl, hempty v⟩
  others _ _ _ _ _ := rfl
  tables _ _ _ _ _ := rfl
  page _ _ _ ht := ⟨rfl, Nat.le_refl _, ht⟩
  free _ _ hz := ⟨hz, rfl⟩
  pinned := rfl
  leaks := rfl
  counts f _ _ _ := by
    have hle : (m₀.refs f : ℕ∞) ≤ 255 := by exact_mod_cast Nat.le_of_lt_succ (m₀.refs_lt f)
    simp [hle]

theorem skip (h : Cloned strict d x parent child m₀ D m) (hl : Ledger m₀ d x) (hpd : parent ∈ d)
    {S : Set Vpn} (hS : ∀ v ∈ S, has (m₀.leaf parent v) pagePresent = false) :
    Cloned strict d x parent child m₀ (D ∪ S) m := by
  refine {h with shared := ?_, rest := ?_, counts := ?_}
  · intro v hv
    by_cases hD : v ∈ D
    · exact h.shared v hD
    have hz := hl.leaf_vacant hpd (hS v (hv.resolve_left hD))
    obtain ⟨hp, hc⟩ := h.rest v hD
    rw [hp, hc, hz, shareEntry_zero]
    exact ⟨rfl, rfl⟩
  · exact fun v hv => h.rest v fun hD => hv (.inl hD)
  · intro f hf hr ht
    have hsame : {v | v ∈ D ∪ S ∧ m₀.frameAt parent v.path = some f} =
        {v | v ∈ D ∧ m₀.frameAt parent v.path = some f} := by
      ext v
      simp only [Set.mem_union, Set.mem_ofPred_eq]
      refine and_congr_left fun hat => or_iff_left fun hv => ?_
      rw [m₀.frameAt_path, hS v hv] at hat
      cases hat
    rw [hsame]
    exact h.counts f hf hr ht

theorem grown (h : Cloned strict d x parent child m₀ D m) (hpd : parent ∈ d) (hc : child ∈ d)
    (hm : Moves strict ⟨m, d, x⟩ ⟨m', d, x⟩) (hg : Grown d m m')
    (hp : ∀ pd ∈ d, pd ≠ child → m'.frameAt pd = m.frameAt pd) : Cloned strict d x parent child m₀ D m' where
  moves := h.moves.trans hm
  shared v hv := by
    rw [hg.leaf parent hpd, hg.leaf child hc]
    exact h.shared v hv
  rest v hv := by
    rw [hg.leaf parent hpd, hg.leaf child hc]
    exact h.rest v hv
  others pd hd hne hne' v := by
    rw [hg.leaf pd hd]
    exact h.others pd hd hne hne' v
  tables pd hd hne path hlen := by
    rw [hp pd hd hne]
    exact h.tables pd hd hne path hlen
  page f hf hr ht := by
    obtain ⟨hw, hle, hnot⟩ := h.page f hf hr ht
    have hr' : m.refs f ≠ 0 := fun hz => hr (Nat.le_zero.mp (hz ▸ hle))
    refine ⟨(hg.word f hf hr' hnot).trans hw, (hg.refs f hf hr').symm ▸ hle, fun ht' => ?_⟩
    exact (hg.tables f hf ht').elim hnot hr'
  free f hf hz := by
    obtain ⟨hz', hw'⟩ := hg.free f hf hz
    obtain ⟨hz₀, hw⟩ := h.free f hf hz'
    exact ⟨hz₀, hw'.trans hw⟩
  pinned := hg.pinned.trans h.pinned
  leaks := by
    obtain ⟨n, hn⟩ := hg.events
    rw [hn]
    exact h.leaks
  counts f hf hr ht := by
    obtain ⟨_, hle, _⟩ := h.page f hf hr ht
    have hr' : m.refs f ≠ 0 := fun hz => hr (Nat.le_zero.mp (hz ▸ hle))
    rw [hg.refs f hf hr']
    exact h.counts f hf hr ht

theorem guards (hg : Guarded m d) (hpd : parent ∈ d) {v : Vpn} :
    m.Guards (shareEntry (m.leaf parent v)) := by
  intro hpres
  rw [shareEntry_present] at hpres
  obtain ⟨_, hpin⟩ := hg parent hpd v hpres
  rw [shareEntry_writable, shareEntry_cow, frameOf_shareEntry]
  refine ⟨fun hw => absurd hw Bool.false_ne_true, fun hcow => hpin ?_⟩
  simpa [or_comm] using hcow

section Share
variable {v : Vpn} {pt ct : Ptr}

def share (m : Machine) (v : Vpn) (pt ct : Ptr) (e : BitVec 64) : Machine :=
  ((m.store pt v.l (shareEntry e)).store ct v.l (shareEntry e)).pageIncref (frameOf e)

theorem share_moves (hl : Ledger m d x) (hg : strict → Guarded m d) (hpd : parent ∈ d)
    (hcd : child ∈ d) (hne : parent ≠ child) (hpt : m.frameAt parent v.table = some pt)
    (hct : m.frameAt child v.table = some ct) (hzero : m.leaf child v = 0#64)
    (hpres : has (m.leaf parent v) pagePresent = true)
    (hroom : m.pinned (frameOf (m.leaf parent v)) = true ∨
      m.refs (frameOf (m.leaf parent v)) < 255) :
    Moves strict ⟨m, d, x⟩ ⟨share m v pt ct (m.leaf parent v), d, x⟩ := by
  generalize he : m.leaf parent v = e at hpres hroom ⊢
  have hword : m.word pt v.l = e := (leaf_eq hpt).symm.trans he
  have huser := (hl.leaves parent hpd v.table pt v.l rfl hpt (by rwa [hword])).2
  rw [hword] at huser
  obtain ⟨hat, hframe, hheld⟩ := hl.mapped hpd (he.symm ▸ hpres)
  rw [he] at hat hframe hheld
  have hguards : strict → m.Guards (shareEntry e) := fun hs => he ▸ guards (hg hs) hpd
  have hflag : Move strict ⟨m, d, x⟩ ⟨m.store pt v.l (shareEntry e), d, x⟩ :=
    .reflag hpd hpt (by rwa [hword]) (by rw [hword, frameOf_shareEntry])
      (by rwa [shareEntry_present]) (by rwa [shareEntry_user]) hguards
  have hl1 : Ledger (m.store pt v.l (shareEntry e)) d x := hflag.ledger hl
  have hleaf1 : (m.store pt v.l (shareEntry e)).leaf parent v = shareEntry e := by
    rw [hl.leaf_storeLeaf hpd hpt _ hpd, if_pos ⟨rfl, rfl⟩]
  have hpres1 : has ((m.store pt v.l (shareEntry e)).leaf parent v) pagePresent = true := by
    rwa [hleaf1, shareEntry_present]
  have hat1 : (m.store pt v.l (shareEntry e)).frameAt parent v.path = some (frameOf e) := by
    rw [(hl1.mapped hpd hpres1).1, hleaf1, frameOf_shareEntry]
  have hunw : strict → (m.store pt v.l (shareEntry e)).Unwritable d (frameOf e) := by
    intro hs
    have hg1 : Guarded (m.store pt v.l (shareEntry e)) d := (hg hs).store hl hpd hpt (hguards hs)
    have hro := hg1.unwritable_of_readonly hl1 hpd hpres1 (by rw [hleaf1, shareEntry_writable])
    rwa [hleaf1, frameOf_shareEntry] at hro
  have hinc : Move strict ⟨m.store pt v.l (shareEntry e), d, x⟩
      ⟨(m.store pt v.l (shareEntry e)).pageIncref (frameOf e), d, bump x (frameOf e)⟩ :=
    .incref hframe hheld (hl1.leaf_not_table hpd hat1) hroom hunw
  have hdiff : ct ≠ pt := fun hx =>
    hne (hl.table_place hcd hpd v.table_length hct (hx ▸ hpt)).1
  have hempty : m.word ct v.l = 0#64 := (leaf_eq hct).symm.trans hzero
  have hct1 : (m.store pt v.l (shareEntry e)).frameAt child v.table = some ct := by
    rw [hl.frameAt_storeLeaf_table hpd hpt _ hcd v.table_length, hct]
  have hempty1 : (m.store pt v.l (shareEntry e)).word ct v.l = 0#64 := by
    rw [store_page_ne hdiff, hempty]
  have hput : Move strict
      ⟨(m.store pt v.l (shareEntry e)).pageIncref (frameOf e), d, bump x (frameOf e)⟩
      ⟨share m v pt ct e, d, drop (bump x (frameOf e)) (frameOf (shareEntry e))⟩ := by
    refine .put (m := (m.store pt v.l (shareEntry e)).pageIncref (frameOf e)) hcd
      hct1 ?_ (by rwa [shareEntry_present]) (by rwa [shareEntry_user]) ?_ (.inr ?_) ?_
    · show has ((m.store pt v.l (shareEntry e)).word ct v.l) pagePresent = false
      rw [hempty1, has_zero]
    · rwa [frameOf_shareEntry]
    · simp [bump]
    · intro hs hp
      rw [pageIncref_pinned, shareEntry_writable]
      exact ⟨fun hw => absurd hw Bool.false_ne_true, fun hc => (hguards hs hp).2 (by simpa using hc)⟩
  rw [frameOf_shareEntry, drop_bump] at hput
  exact ((Relation.ReflTransGen.single hflag).tail hinc).tail hput

section Effect
variable (hl : Ledger m d x) (hpd : parent ∈ d) (hcd : child ∈ d)
  (hpt : m.frameAt parent v.table = some pt) (hct : m.frameAt child v.table = some ct)
  (hpres : has (m.leaf parent v) pagePresent = true)
include hl hpd hcd hpt hct hpres

theorem share_frameAt {pd : Ptr} (hd : pd ∈ d) {path : List (BitVec 9)} (hlen : path.length ≤ 3) :
    (share m v pt ct (m.leaf parent v)).frameAt pd path = m.frameAt pd path := by
  have hl1 := hl.unshare hpd hpt hpres
  have hct1 := hl.frameAt_storeLeaf_table hpd hpt (shareEntry (m.leaf parent v)) hcd v.table_length
  rw [hct] at hct1
  have htwo := hl1.frameAt_storeLeaf_table hcd hct1 (shareEntry (m.leaf parent v)) hd hlen
  exact htwo.trans (hl.frameAt_storeLeaf_table hpd hpt _ hd hlen)

theorem share_isTable (f : Ptr) :
    (share m v pt ct (m.leaf parent v)).IsTable d f ↔ m.IsTable d f := by
  have hat := fun {pd : Ptr} (hd : pd ∈ d) {path : List (BitVec 9)} (hlen : path.length ≤ 3) =>
    share_frameAt hl hpd hcd hpt hct hpres hd hlen
  constructor
  · rintro ⟨pd, hd, path, hlen, hf⟩
    exact ⟨pd, hd, path, hlen, (hat hd hlen).symm.trans hf⟩
  · rintro ⟨pd, hd, path, hlen, hf⟩
    exact ⟨pd, hd, path, hlen, (hat hd hlen).trans hf⟩

theorem share_leaf {pd : Ptr} (hd : pd ∈ d) (v' : Vpn) :
    (share m v pt ct (m.leaf parent v)).leaf pd v' =
      if (pd = parent ∨ pd = child) ∧ v' = v then shareEntry (m.leaf parent v)
      else m.leaf pd v' := by
  have hl1 := hl.unshare hpd hpt hpres
  have hct1 := hl.frameAt_storeLeaf_table hpd hpt (shareEntry (m.leaf parent v)) hcd v.table_length
  rw [hct] at hct1
  have htwo := hl1.leaf_storeLeaf hcd hct1 (shareEntry (m.leaf parent v)) hd v'
  refine htwo.trans ?_
  rw [hl.leaf_storeLeaf hpd hpt _ hd]
  by_cases hv : v' = v <;> by_cases hc : pd = child <;> simp [hv, hc]

end Effect

/-- The pages of `parent` that map `f`, with one page more. -/
theorem encard_shared {f : Ptr} (hv : v ∉ D) (hat : m₀.frameAt parent v.path = some f) (f' : Ptr) :
    {w | w ∈ D ∪ {v} ∧ m₀.frameAt parent w.path = some f'}.encard =
      {w | w ∈ D ∧ m₀.frameAt parent w.path = some f'}.encard + if f' = f then 1 else 0 := by
  by_cases hf : f' = f
  · subst hf
    have hset : {w | w ∈ D ∪ {v} ∧ m₀.frameAt parent w.path = some f'} =
        insert v {w | w ∈ D ∧ m₀.frameAt parent w.path = some f'} := by
      ext w
      by_cases hw : w = v
      · simp [hw, hat]
      · simp [hw]
    rw [hset, Set.encard_insert_of_notMem fun hx => hv hx.1, if_pos rfl]
  · have hset : {w | w ∈ D ∪ {v} ∧ m₀.frameAt parent w.path = some f'} =
        {w | w ∈ D ∧ m₀.frameAt parent w.path = some f'} := by
      ext w
      by_cases hw : w = v
      · simp [hw, hat, Ne.symm hf]
      · simp [hw]
    rw [hset, if_neg hf, add_zero]

theorem count_one {r : Nat} {n : ℕ∞} (h : (r : ℕ∞) = min 255 n) :
    ((if r < 255 then r + 1 else r : Nat) : ℕ∞) = min 255 (n + 1) := by
  rcases le_or_gt 255 n with hfull | hroom
  · rw [min_eq_left hfull] at h
    obtain rfl : r = 255 := by exact_mod_cast h
    rw [min_eq_left (hfull.trans le_self_add)]
    rfl
  · rw [min_eq_right hroom.le] at h
    subst h
    have hlt : r < 255 := by exact_mod_cast hroom
    have hle : (r : ℕ∞) + 1 ≤ 255 := by exact_mod_cast hlt
    rw [if_pos hlt, min_eq_right hle]
    rfl

theorem step (h : Cloned strict d x parent child m₀ D m) (hl₀ : Ledger m₀ d x)
    (hg₀ : strict → Guarded m₀ d) (hpd : parent ∈ d) (hcd : child ∈ d) (hne : parent ≠ child)
    (hv : v ∉ D) (hpt : m.frameAt parent v.table = some pt)
    (hct : m.frameAt child v.table = some ct) (hpres : has (m₀.leaf parent v) pagePresent = true)
    (hroom : m.pinned (frameOf (m₀.leaf parent v)) = true ∨
      m.refs (frameOf (m₀.leaf parent v)) < 255) :
    Cloned strict d x parent child m₀ (D ∪ {v}) (share m v pt ct (m₀.leaf parent v)) := by
  have hl : Ledger m d x := h.moves.ledger hl₀
  have hg : strict → Guarded m d := fun hs => h.moves.guarded hs hl₀ (hg₀ hs)
  obtain ⟨hsame, hzero⟩ := h.rest v hv
  obtain ⟨hat₀, hframe, _⟩ := hl₀.mapped hpd hpres
  rw [← hsame] at hpres hroom
  have hheld := (hl.mapped hpd hpres).2.2
  have hmoves := share_moves hl hg hpd hcd hne hpt hct hzero hpres hroom
  have htable := share_isTable hl hpd hcd hpt hct hpres
  have hleaf := fun {pd : Ptr} (hd : pd ∈ d) => share_leaf hl hpd hcd hpt hct hpres hd
  have hup := fun {pd : Ptr} (hd : pd ∈ d) {path : List (BitVec 9)} (hlen : path.length ≤ 3) =>
    share_frameAt hl hpd hcd hpt hct hpres hd hlen
  rw [hsame] at hmoves htable hleaf hup hheld
  generalize hms : share m v pt ct (m₀.leaf parent v) = ms at hmoves htable hleaf hup
  have hrefs : ∀ f, IsFrame f → ms.refs f =
      if f = frameOf (m₀.leaf parent v) ∧ m.refs (frameOf (m₀.leaf parent v)) < 255
        then m.refs f + 1 else m.refs f := by
    intro f hf
    subst hms
    exact refs_pageIncref (m := (m.store pt v.l _).store ct v.l _) hl.sound hframe hheld hf
  have hword : ∀ f, f ≠ pt → f ≠ ct → ms.word f = m.word f := by
    intro f hfp hfc
    subst hms
    exact (store_page_ne hfc).trans (store_page_ne hfp)
  have hpin : ms.pinned = m.pinned := by
    subst hms
    exact pageIncref_pinned
  constructor
  case moves => exact h.moves.trans hmoves
  case shared =>
    intro w hw
    rw [hleaf hpd, hleaf hcd]
    by_cases hwv : w = v
    · subst hwv
      simp
    · rw [if_neg fun hx => hwv hx.2, if_neg fun hx => hwv hx.2]
      exact h.shared w (hw.resolve_right hwv)
  case rest =>
    intro w hw
    have hwv : w ≠ v := fun hx => hw (.inr hx)
    rw [hleaf hpd, hleaf hcd, if_neg fun hx => hwv hx.2, if_neg fun hx => hwv hx.2]
    exact h.rest w fun hx => hw (.inl hx)
  case others =>
    intro pd hd hp hc w
    rw [hleaf hd, if_neg fun hx => hx.1.elim hp hc]
    exact h.others pd hd hp hc w
  case tables => exact fun pd hd hne' path hlen => (hup hd hlen).trans (h.tables pd hd hne' path hlen)
  case page =>
    intro f hf hr ht
    obtain ⟨hw, hle, hnot⟩ := h.page f hf hr ht
    have hfp : f ≠ pt := fun hx => hnot (hx ▸ Ledger.isTable hpd v.table_length hpt)
    have hfc : f ≠ ct := fun hx => hnot (hx ▸ Ledger.isTable hcd v.table_length hct)
    refine ⟨(hword f hfp hfc).trans hw, hle.trans ?_, fun hx => hnot ((htable f).mp hx)⟩
    rw [hrefs f hf]
    split <;> omega
  case free =>
    intro f hf hz
    have hz' : m.refs f = 0 := by
      rw [hrefs f hf] at hz
      split at hz <;> omega
    have hfp : f ≠ pt := fun hx => hl.held hpd hpt (hx ▸ hz')
    have hfc : f ≠ ct := fun hx => hl.held hcd hct (hx ▸ hz')
    obtain ⟨hz₀, hw⟩ := h.free f hf hz'
    exact ⟨hz₀, (hword f hfp hfc).trans hw⟩
  case pinned => exact hpin.trans h.pinned
  case leaks =>
    subst hms
    exact h.leaks
  case counts =>
    intro f hf hr ht
    have hcount := h.counts f hf hr ht
    rw [hrefs f hf, encard_shared hv hat₀, ← add_assoc]
    by_cases hfe : f = frameOf (m₀.leaf parent v)
    · subst hfe
      simp only [true_and, if_true]
      exact count_one hcount
    · rw [if_neg fun hx => hfe hx.1, if_neg hfe, add_zero]
      exact hcount

end Share

end Cloned

end Nyx.Paging
