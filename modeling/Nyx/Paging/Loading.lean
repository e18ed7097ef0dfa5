import Nyx.Paging.Hostile
import Nyx.Paging.Reading

/-! Loading into a new address space, page by page.

Each page the loader maps is one it has just taken, so nothing that was mapped before changes with
it, but for the page it may replace (`Alters`). The loops run in a state that is accounted for as
long as no allocation fails. -/
namespace Nyx.Paging
open Machine Vpn List
open Process (userSpaceEnd)
open Lib

structure Own (d : Set Ptr) (m : Machine) (p : Ptr) : Prop where
  frame : IsFrame p
  refs : m.refs p = 1
  unpinned : m.pinned p = false
  page : ¬ m.IsTable d p

/-- `m'` is `m` with the pages `V` of `pd` mapped anew. -/
structure Alters (d : Set Ptr) (pd : Ptr) (V : Set Vpn) (m m' : Machine) : Prop where
  balanced : ∃ x, Ledger m' d x
  leaf : ∀ v ∉ V, m'.leaf pd v = m.leaf pd v
  own : ∀ p, Own d m p → Own d m' p ∧ m'.word p = m.word p
  pinned : ∀ p, IsFrame p → m.pinned p = true → m'.pinned p = true

/-- A page with its entry, a frame of its own and what is known of its bytes. -/
def Shown (d : Set Ptr) (pd : Ptr) (v : Vpn) (flags : BitVec 64)
    (bytes : BitVec 12 → Option (BitVec 8)) (m : Machine) : Prop :=
  ∃ p, m.leaf pd v = userLeaf p flags ∧ Own d m p ∧ ∀ o, ∀ b ∈ bytes o, m.byte p o = b

section
variable {d : Set Ptr} {x : Ptr → Nat} {m m₁ m₂ m' : Machine} {pd p : Ptr} {V : Set Vpn}
  {va flags : BitVec 64} {v : Vpn} {bytes : BitVec 12 → Option (BitVec 8)}

theorem Shown.alters (h : Shown d pd v flags bytes m) (ha : Alters d pd V m m') (hv : v ∉ V) :
    Shown d pd v flags bytes m' := by
  obtain ⟨p, hleaf, hown, hbytes⟩ := h
  obtain ⟨hown', hword⟩ := ha.own p hown
  refine ⟨p, (ha.leaf v hv).trans hleaf, hown', fun o b hb => ?_⟩
  rw [Machine.byte, hword]
  exact hbytes o b hb

theorem Spares.own (h : Spares d d m m') {q : Ptr} (hq : Own d m q) :
    Own d m' q ∧ m'.word q = m.word q := by
  obtain ⟨hrefs, hword, hpin, hpage⟩ := h.page q hq.frame (by simp [hq.refs]) hq.page
  exact ⟨⟨hq.frame, hrefs.trans hq.refs, hpin.trans hq.unpinned, hpage⟩, hword⟩

theorem Spares.pinned (h : Spares d d m m') (hl : Ledger m d x) {q : Ptr} (hq : IsFrame q)
    (hpin : m.pinned q = true) : m'.pinned q = true :=
  (h.page q hq (hl.pinned q hq hpin) (hl.not_table (.inl hpin))).2.2.1.trans hpin

/-- A page just taken is mapped, and written before or after. -/
theorem putPage (hl : Ledger m d x) (hpd : pd ∈ d) (hv : (of va).User)
    (hf : flags &&& pageUser = pageUser) (ht : m.Took m₁ p)
    (hm : m₂ = m₁ ∨ ∃ page, m₂ = m₁.fill p page)
    (hn : (m₂.mapPageDir pd p va flags).events.nulls = m.events.nulls)
    (page : BitVec 9 → BitVec 64) :
    Alters d pd {of va} m ((m₂.mapPageDir pd p va flags).fill p page) ∧
      ((m₂.mapPageDir pd p va flags).fill p page).leaf pd (of va) = userLeaf p flags ∧
      Own d ((m₂.mapPageDir pd p va flags).fill p page) p := by
  have hl₁ := hl.took ht
  have hfresh₁ := Fresh.of_took hl ht
  have hnot₁ := hfresh₁.not_table hl₁
  obtain ⟨hl₂, hfresh₂, hs₂, hev⟩ : Ledger m₂ d (bump x p) ∧ Fresh m₂ (bump x p) p ∧
      Spares d d m m₂ ∧ m₂.events = m.events ∧ ∀ v, m₂.leaf pd v = m.leaf pd v := by
    have hleaf (v : Vpn) : m₁.leaf pd v = m.leaf pd v := leaf_of_word ht.word pd v
    rcases hm with rfl | ⟨page, rfl⟩
    · exact ⟨hl₁, hfresh₁, .of_took ht, ht.events, hleaf⟩
    refine ⟨hl₁.fill hnot₁ page, hfresh₁.fill page,
      (Spares.of_took ht).fill ht.fresh hfresh₁.held hnot₁ page, ht.events, fun v => ?_⟩
    rw [← hleaf v]
    exact Ledger.leaf_eq_of_word (fun f hf => fill_ne fun he : f = p => hnot₁ (he ▸ hf)) hpd v
  obtain ⟨hev, hleaf₂⟩ := hev
  have hmaps : Maps d pd (of va) (userLeaf p flags) m₂ (m₂.mapPml4 pd p va flags) :=
    (mapPml4_maps hl₂ hpd hv hf).resolve_left (by
      rw [← Machine.mapPageDir, hn, hev]
      exact Nat.lt_irrefl _)
  obtain ⟨x', hmoves, -⟩ := mapPml4_settles False hl₂ hpd hv hf hfresh₂
  rw [← Machine.mapPageDir] at hmaps hmoves
  have hown := (hmaps.spares.own
    ⟨hfresh₂.frame, hfresh₂.refs, hfresh₂.unpinned, hfresh₂.not_table hl₂⟩).1
  have hl₃ := hmoves.ledger hl₂
  generalize m₂.mapPageDir pd p va flags = m₃ at hn hmaps hl₃ hown
  have hword (f : Ptr) (hf : m₃.IsTable d f) : (m₃.fill p page).word f = m₃.word f :=
    fill_ne fun he => hown.page (he ▸ hf)
  have hleaf (v : Vpn) : (m₃.fill p page).leaf pd v =
      if v = of va then userLeaf p flags else m.leaf pd v := by
    rw [Ledger.leaf_eq_of_word hword hpd, hmaps.leaf pd hpd, ← hleaf₂ v]
    simp only [true_and]
  have hspares : Spares d d m (m₃.fill p page) :=
    (hs₂.trans hmaps.spares).fill ht.fresh (by simp [hown.refs]) hown.page page
  refine ⟨⟨⟨x', hl₃.fill hown.page page⟩, fun v hne => ?_, fun q hq => hspares.own hq,
    fun q hq hpin => hspares.pinned hl hq hpin⟩, ?_, hown.frame, hown.refs, hown.unpinned, ?_⟩
  · rw [hleaf, if_neg (show v ≠ of va from hne)]
  · rw [hleaf, if_pos rfl]
  · rw [Ledger.isTable_eq hword]
    exact hown.page

theorem putMaster (hl : Ledger m d x) (hpd : pd ∈ d) (hv : (of va).User) (hframe : IsFrame p)
    (hpin : m.pinned p = true) (exec : Bool)
    (hn : (m.mapPageRo pd p va exec).events.nulls = m.events.nulls) :
    Alters d pd {of va} m ((m.mapPageRo pd p va exec).pageIncref p) := by
  have hkeeps : Keeps True m d _ d := mapPageRo_keeps hpd hv hframe hpin exec
  obtain ⟨x', hl₁, -⟩ := hkeeps.ledger hl
  have hmaps : ∃ e, Maps d pd (of va) e m (m.mapPageRo pd p va exec) := by
    have hw : Walked True d x m pd _ _ := walkTo_grows hl hpd hv descend_grows
    rw [Machine.mapPageRo, ptePtr] at hn ⊢
    cases hr : Machine.walk (Machine.descend · true)
      [index va 39, index va 30, index va 21] m pd with
    | mk m₁ t =>
      rw [hr] at hw hn
      cases t with
      | none => exact absurd hn (Nat.ne_of_gt (hw.failed rfl))
      | some t =>
        exact ⟨_, .after_grown hw.grown hn (setLeaf_maps (hw.moves.ledger hl) hpd (hw.found t rfl) _)⟩
  obtain ⟨e, hmaps⟩ := hmaps
  generalize m.mapPageRo pd p va exec = m₁ at hl₁ hmaps
  have hpin₁ := hmaps.spares.pinned hl hframe hpin
  have hheld := hl₁.pinned p hframe hpin₁
  have hmove : Move False ⟨m₁, d, x'⟩ ⟨m₁.pageIncref p, d, bump x' p⟩ :=
    .incref hframe hheld (hl₁.not_table (.inl hpin₁)) (.inl hpin₁) False.elim
  refine ⟨⟨_, hmove.ledger hl₁⟩, fun v hne => ?_, fun q hq => ?_, fun q hq hpin => by
      rw [pageIncref_pinned, hmaps.spares.pinned hl hq hpin]⟩
  · rw [leaf_of_word (show (m₁.pageIncref p).word = m₁.word from rfl), hmaps.leaf pd hpd, if_neg fun hx => (show v ≠ of va from hne) hx.2]
  obtain ⟨hown, hword⟩ := hmaps.spares.own hq
  have hne : q ≠ p := fun he => Bool.false_ne_true (hown.unpinned.symm.trans (he ▸ hpin₁))
  refine ⟨⟨hown.frame, ?_, by rw [pageIncref_pinned, hown.unpinned], fun ht => ?_⟩, hword⟩
  · rw [refs_pageIncref hl₁.sound hframe hheld hown.frame, if_neg fun hx => hne hx.1, hown.refs]
  · exact hown.page ((Ledger.isTable_eq (fun _ _ => rfl) q).1 ht)

end

/-! ### The bytes of a page -/

variable (g : BitVec 3 → BitVec 8)

theorem getLsbD_ofBytes (i : Nat) : (ofBytes g).getLsbD i =
    if i < 8 then (g 0#3).getLsbD i else if i < 16 then (g 1#3).getLsbD (i - 8)
    else if i < 24 then (g 2#3).getLsbD (i - 16) else if i < 32 then (g 3#3).getLsbD (i - 24)
    else if i < 40 then (g 4#3).getLsbD (i - 32) else if i < 48 then (g 5#3).getLsbD (i - 40)
    else if i < 56 then (g 6#3).getLsbD (i - 48) else (g 7#3).getLsbD (i - 56) := by
  unfold ofBytes
  iterate 7 rw [BitVec.getLsbD_append]
  simp only [Nat.sub_sub]
  grind

theorem byteOf_ofBytes (b : BitVec 3) : byteOf (ofBytes g) b = g b := by
  have hcases : ∀ b : BitVec 3, b = 0#3 ∨ b = 1#3 ∨ b = 2#3 ∨ b = 3#3 ∨ b = 4#3 ∨ b = 5#3 ∨
      b = 6#3 ∨ b = 7#3 := by decide
  ext i hi
  rw [byteOf, BitVec.getElem_extractLsb', getLsbD_ofBytes, ← BitVec.getLsbD_eq_getElem]
  rcases hcases b with rfl | rfl | rfl | rfl | rfl | rfl | rfl | rfl <;> grind

namespace Machine
variable {m m' m'' : Machine} {p : Ptr}

theorem byte_setBytes (m : Machine) (p : Ptr) (g : BitVec 12 → BitVec 8) (o : BitVec 12) :
    (m.setBytes p g).byte p o = g o := by
  have hsplit : o.extractLsb' 3 9 ++ o.extractLsb' 0 3 = o := by
    ext i hi
    simp only [BitVec.getElem_append, BitVec.getElem_extractLsb']
    split
    · simp [BitVec.getLsbD_eq_getElem hi]
    · rw [show 3 + (i - 3) = i by omega, BitVec.getLsbD_eq_getElem hi]
  rw [byte, setBytes, fill_self, byteOf_ofBytes, hsplit]

theorem byte_copyIn (m : Machine) (p : Ptr) (off n : Nat) (src : Nat → BitVec 8) (o : BitVec 12) :
    (m.copyIn p off n src).byte p o =
      if off ≤ o.toNat ∧ o.toNat < off + n then src (o.toNat - off) else m.byte p o :=
  byte_setBytes ..

/-- Only the bytes of `p` differ. -/
def Writes (p : Ptr) (m m' : Machine) : Prop := m' = m.fill p (m'.word p)

theorem Writes.eq_fill (h : Writes p m m') : m' = m.fill p (m'.word p) := h

theorem Writes.events (h : Writes p m m') : m'.events = m.events := by
  rw [h.eq_fill]
  rfl

theorem Writes.refl : Writes p m m := by simp [Writes, fill]

theorem Writes.fill (page : BitVec 9 → BitVec 64) : Writes p m (m.fill p page) := by
  rw [Writes, fill_self]

theorem Writes.trans (h : Writes p m m') (h' : Writes p m' m'') : Writes p m m'' := by
  rw [Writes] at h h' ⊢
  rw [h, Machine.fill] at h'
  rw [h']
  simp [Machine.fill]

end Machine

/-! ### A page of a segment -/

/-- What a segment says of the byte at an address. -/
def segByte (f : ElfFile) (ph : Phdr) (a : Nat) : Option (BitVec 8) :=
  if ph.vaddr.toNat ≤ a ∧ a < ph.vaddr.toNat + ph.filesz.toNat then
    some (f.data (ph.offset.toNat + (a - ph.vaddr.toNat)))
  else if ph.vaddr.toNat + ph.filesz.toNat ≤ a ∧ a < ph.vaddr.toNat + ph.memsz.toNat then some 0#8
  else none

variable (ph : Phdr)

def segFlags : BitVec 64 :=
  (if ph.writable then 0x7#64 else 0x5#64) ||| (if ph.exec then 0#64 else pageNx)

theorem segFlags_user : segFlags ph &&& pageUser = pageUser := by
  rw [segFlags]
  cases ph.writable <;> cases ph.exec <;> decide

def zeroStart (page : BitVec 64) : Nat :=
  if page < ph.vaddr + ph.filesz then (ph.vaddr + ph.filesz - page).toNat else 0

def zeroEnd (page : BitVec 64) : Nat :=
  if ph.vaddr + ph.memsz < page + 0x1000#64 then (ph.vaddr + ph.memsz - page).toNat else 4096

def zeroTail (page : BitVec 64) (m : Machine) (p : Ptr) : Machine :=
  if ph.vaddr + ph.filesz < page + 0x1000#64 ∧ page < ph.vaddr + ph.memsz then
    if zeroStart ph page < zeroEnd ph page then
      m.copyIn p (zeroStart ph page) (zeroEnd ph page - zeroStart ph page) fun _ => 0#8
    else m
  else m

theorem loadSegmentPage_eq {m : Machine} (hp : m.allocPage.2 ≠ 0#64) (pd : Ptr) (f : ElfFile)
    (ph : Phdr) (page : BitVec 64) : m.loadSegmentPage pd f ph page =
      (zeroTail ph page ((m.allocPage.1.mapPageDir pd m.allocPage.2 page
        (segFlags ph)).copySegment f ph page m.allocPage.2) m.allocPage.2, true) := by
  rw [Machine.loadSegmentPage, zeroTail]
  simp only [hp, if_false]
  split
  · rfl
  · rfl

section Segment
variable {f : ElfFile} {ph : Phdr} {page : BitVec 64} (hfile : ph.inFile f.size = true)
  (h : ph.inUserSpace = true) (ht : Checked.Touches ph page)
include hfile h ht

theorem copySegment_writes (m : Machine) (p : Ptr) :
    Machine.Writes p m (m.copySegment f ph page p) ∧
      ∀ o : BitVec 12, (m.copySegment f ph page p).byte p o =
        if ph.vaddr.toNat ≤ page.toNat + o.toNat ∧
          page.toNat + o.toNat < ph.vaddr.toNat + ph.filesz.toNat then
          f.data (ph.offset.toNat + (page.toNat + o.toNat - ph.vaddr.toNat)) else m.byte p o := by
  obtain ⟨hcs, hce, hrange⟩ := Checked.copy_range hfile h ht
  unfold Machine.copySegment
  dsimp only
  split
  case isFalse hnone =>
    refine ⟨.refl, fun o => ?_⟩
    have := o.isLt
    rw [BitVec.lt_def, hcs, hce] at hnone
    rw [if_neg (by omega)]
  case isTrue hlt =>
    obtain ⟨hlen, hto, hfrom⟩ := hrange hlt
    rw [BitVec.lt_def, hcs, hce] at hlt
    refine ⟨.fill _, fun o => ?_⟩
    have := o.isLt
    rw [byte_copyIn, hlen, hto, hfrom, hcs, hce]
    by_cases hc : ph.vaddr.toNat ≤ page.toNat + o.toNat ∧
        page.toNat + o.toNat < ph.vaddr.toNat + ph.filesz.toNat
    · rw [if_pos (by omega), if_pos hc]
      congr 1
      omega
    · rw [if_neg (by omega), if_neg hc]

omit hfile in
theorem zeroTail_writes (hf : ph.filesz.toNat < 2 ^ 32) (m : Machine) (p : Ptr) :
    Machine.Writes p m (zeroTail ph page m p) ∧ ∀ o : BitVec 12, (zeroTail ph page m p).byte p o =
        if ph.vaddr.toNat + ph.filesz.toNat ≤ page.toNat + o.toNat ∧
          page.toNat + o.toNat < ph.vaddr.toNat + ph.memsz.toNat then 0#8 else m.byte p o := by
  have hbounds := Checked.inUserSpace_bounds h
  have hend := Checked.toNat_endPage h
  have hdata : (ph.vaddr + ph.filesz).toNat = ph.vaddr.toNat + ph.filesz.toNat := by
    rw [BitVec.toNat_add]; omega
  have hmem : (ph.vaddr + ph.memsz).toNat = ph.vaddr.toNat + ph.memsz.toNat := by
    rw [BitVec.toNat_add]; omega
  have hpage : (page + 0x1000#64).toNat = page.toNat + 4096 := by
    have := ht.2
    rw [BitVec.toNat_add, BitVec.toNat_ofNat]
    omega
  have hzs : zeroStart ph page = ph.vaddr.toNat + ph.filesz.toNat - page.toNat := by
    rw [zeroStart]
    split <;> simp only [BitVec.lt_def, BitVec.toNat_sub, hdata] at * <;> omega
  have hze : page < ph.vaddr + ph.memsz →
      zeroEnd ph page = min (ph.vaddr.toNat + ph.memsz.toNat - page.toNat) 4096 := by
    intro hlt
    rw [zeroEnd]
    split <;> simp only [BitVec.lt_def, BitVec.toNat_sub, hmem, hpage] at * <;> omega
  rw [zeroTail]
  split
  case isFalse hno =>
    refine ⟨.refl, fun o => ?_⟩
    have := o.isLt
    rw [BitVec.lt_def, BitVec.lt_def, hdata, hmem, hpage] at hno
    rw [if_neg (by omega)]
  case isTrue hyes =>
    rw [hzs, hze hyes.2]
    rw [BitVec.lt_def, BitVec.lt_def, hdata, hmem, hpage] at hyes
    split
    case isFalse hno =>
      refine ⟨.refl, fun o => ?_⟩
      have := o.isLt
      rw [if_neg (by omega)]
    case isTrue hlt =>
      refine ⟨.fill _, fun o => ?_⟩
      have := o.isLt
      rw [byte_copyIn]
      by_cases hc : ph.vaddr.toNat + ph.filesz.toNat ≤ page.toNat + o.toNat ∧
          page.toNat + o.toNat < ph.vaddr.toNat + ph.memsz.toNat
      · rw [if_pos (by omega), if_pos hc]
      · rw [if_neg (by omega), if_neg hc]

theorem loadSegmentPage_shown {d : Set Ptr} {x : Ptr → Nat} {m : Machine} {pd : Ptr}
    (hl : Ledger m d x) (hpd : pd ∈ d) (hok : (m.loadSegmentPage pd f ph page).2 = true)
    (hn : (m.loadSegmentPage pd f ph page).1.events.nulls = m.events.nulls) :
    Alters d pd {of page} m (m.loadSegmentPage pd f ph page).1 ∧
      Shown d pd (of page) (segFlags ph) (fun o => segByte f ph (page.toNat + o.toNat))
        (m.loadSegmentPage pd f ph page).1 := by
  have huser : (of page).User := user_of_lt (Checked.mappable_touches h ht).2
  have hflags := segFlags_user ph
  rcases allocPage_cases hl.sound with ⟨hnull, -⟩ | htook
  · rw [Machine.loadSegmentPage] at hok
    simp only [hnull, if_true] at hok
    cases hok
  have hsize := f.size.isLt
  have hin := Checked.inFile_bounds hfile
  obtain ⟨hcopy, hfirst⟩ := copySegment_writes hfile h ht
    (m.allocPage.1.mapPageDir pd m.allocPage.2 page (segFlags ph)) m.allocPage.2
  obtain ⟨hzero, hrest⟩ := zeroTail_writes h ht (by omega)
    ((m.allocPage.1.mapPageDir pd m.allocPage.2 page (segFlags ph)).copySegment f ph page
      m.allocPage.2) m.allocPage.2
  have hwrites := hcopy.trans hzero
  rw [loadSegmentPage_eq htook.frame.ne_zero] at hn ⊢
  dsimp only at hn ⊢
  rw [hwrites.events] at hn
  have hput := putPage hl hpd huser hflags htook (.inl rfl) hn
  generalize zeroTail ph page _ m.allocPage.2 = r at hwrites hrest ⊢
  obtain ⟨halters, hleaf, hown⟩ := hput (r.word m.allocPage.2)
  rw [← hwrites.eq_fill] at halters hleaf hown
  refine ⟨halters, _, hleaf, hown, fun o b hb => ?_⟩
  have hb : segByte f ph (page.toNat + o.toNat) = some b := hb
  rw [hrest, hfirst]
  rw [segByte] at hb
  split at hb
  case isTrue hc => rw [if_neg (by omega), if_pos hc, Option.some.inj hb]
  case isFalse =>
    split at hb
    case isTrue hz => rw [if_pos hz, Option.some.inj hb]
    case isFalse => cases hb

end Segment

/-! ### Failed allocations are counted -/

section Nulls
variable {m : Machine} {pd p : Ptr}

theorem allocPage_nulls (m : Machine) : m.events.nulls ≤ m.allocPage.1.events.nulls := by
  rw [allocPage]
  split <;> exact Nat.le_add_right _ _

theorem walk_nulls {step : Machine → Ptr → BitVec 9 → Machine × Option Ptr}
    (hs : ∀ m t i, m.events.nulls ≤ (step m t i).1.events.nulls) (is : List (BitVec 9))
    (m : Machine) (t : Ptr) : m.events.nulls ≤ (Machine.walk step is m t).1.events.nulls := by
  induction is generalizing m t with
  | nil => exact Nat.le_refl _
  | cons i rest ih =>
    have hstep := hs m t i
    rw [Machine.walk]
    split
    case h_1 m' next hr =>
      rw [hr] at hstep
      exact hstep.trans (ih m' next)
    case h_2 m' hr =>
      rw [hr] at hstep
      exact hstep

theorem mapPageDir_nulls (m : Machine) (pd phys : Ptr) (virt flags : BitVec 64) :
    m.events.nulls ≤ (m.mapPageDir pd phys virt flags).events.nulls := by
  have hlevel (m : Machine) (t : Ptr) (i : BitVec 9) :
      m.events.nulls ≤ (m.mapLevel flags t i).1.events.nulls := by
    rw [Machine.mapLevel]
    split
    · exact Nat.le_refl _
    dsimp only
    split <;> exact allocPage_nulls m
  have hwalk := walk_nulls hlevel [index virt 39, index virt 30, index virt 21] m pd
  rw [Machine.mapPageDir, Machine.mapPml4]
  split
  case h_1 m' hr =>
    rw [hr] at hwalk
    exact hwalk
  case h_2 m' t hr =>
    rw [hr] at hwalk
    exact hwalk

theorem mapPageRo_nulls (m : Machine) (pd phys : Ptr) (virt : BitVec 64) (exec : Bool) :
    m.events.nulls ≤ (m.mapPageRo pd phys virt exec).events.nulls := by
  have hlevel (m : Machine) (t : Ptr) (i : BitVec 9) :
      m.events.nulls ≤ (m.descend true t i).1.events.nulls := by
    rw [Machine.descend]
    split
    · exact Nat.le_refl _
    split
    · exact Nat.le_refl _
    dsimp only
    split
    · split <;> exact allocPage_nulls m
    · exact Nat.le_refl _
  have hwalk := walk_nulls hlevel [index virt 39, index virt 30, index virt 21] m pd
  rw [Machine.mapPageRo, ptePtr]
  cases hr : Machine.walk (Machine.descend · true) [index virt 39, index virt 30, index virt 21] m pd with
  | mk m' t =>
    rw [hr] at hwalk
    cases t with
    | none => exact hwalk
    | some t => exact hwalk

end Nulls

/-- An allocation failed since `m₀`, or `P` holds. -/
def Unless (m₀ : Machine) (P : Machine → Prop) (m : Machine) : Prop :=
  m₀.events.nulls < m.events.nulls ∨ m.events.nulls = m₀.events.nulls ∧ P m

variable {Q : Machine → Prop} {m m' : Machine}

theorem Unless.start (hle : m.events.nulls ≤ m'.events.nulls)
    (hq : m'.events.nulls = m.events.nulls → Q m') : Unless m Q m' :=
  (Nat.lt_or_eq_of_le hle).imp_right fun heq => ⟨heq.symm, hq heq.symm⟩

theorem Unless.le (h : Unless m Q m') :
    m.events.nulls ≤ m'.events.nulls := h.elim Nat.le_of_lt fun h => Nat.le_of_eq h.1.symm

theorem Unless.get (h : Unless m Q m') (hle : m'.events.nulls ≤ m.events.nulls) : Q m' :=
  (h.resolve_left (Nat.not_lt.mpr hle)).2

/-- A step from `m` that establishes `Q` if no allocation fails in it. -/
theorem Unless.step {m₀ m m' : Machine} {P Q : Machine → Prop} (h : Unless m₀ P m)
    (hle : m.events.nulls ≤ m'.events.nulls)
    (hq : P m → m'.events.nulls = m.events.nulls → Q m') : Unless m₀ Q m' := by
  rcases h with hlt | ⟨heq, hp⟩
  · exact .inl (Nat.lt_of_lt_of_le hlt hle)
  rcases Nat.lt_or_eq_of_le hle with hlt | hsame
  · exact .inl (heq ▸ hlt)
  · exact .inr ⟨hsame.symm.trans heq, hq hp hsame.symm⟩

/-! ### The pages put so far -/

/-- A page the loader maps. -/
structure Put where
  vpn : Vpn
  flags : BitVec 64
  bytes : BitVec 12 → Option (BitVec 8)

/-- The space `pd` after the puts `log`, the newest first: a page shows its newest put. The frame
`top` holds the top of the stack. -/
structure Laid (d : Set Ptr) (pd : Ptr) (m₀ : Machine) (top : Ptr) (log : List Put)
    (m : Machine) : Prop where
  balanced : ∃ x, Ledger m d x
  top : Own d m top
  pinned : ∀ p, IsFrame p → m₀.pinned p = true → m.pinned p = true
  shown : ∀ v, ∀ put ∈ log.find? (·.vpn == v), Shown d pd v put.flags put.bytes m

/-- A step that puts a page, unless an allocation fails. -/
structure Puts (d : Set Ptr) (pd : Ptr) (body : Machine → Machine × Bool) (put : Put) : Prop where
  nulls : ∀ m, m.events.nulls ≤ (body m).1.events.nulls
  put : ∀ m x, Ledger m d x → (body m).2 = true → (body m).1.events.nulls = m.events.nulls →
    Alters d pd {put.vpn} m (body m).1 ∧ Shown d pd put.vpn put.flags put.bytes (body m).1

section
variable {d : Set Ptr} {pd top : Ptr} {m₀ m m' : Machine} {log : List Put} {put : Put}
  {body : Machine → Machine × Bool}

theorem Laid.cons (h : Laid d pd m₀ top log m) (ha : Alters d pd {put.vpn} m m')
    (hs : Shown d pd put.vpn put.flags put.bytes m') : Laid d pd m₀ top (put :: log) m' := by
  refine ⟨ha.balanced, (ha.own top h.top).1, fun p hp hpin => ha.pinned p hp (h.pinned p hp hpin),
    fun v q hq => ?_⟩
  by_cases hv : put.vpn = v
  · rw [find?_cons_of_pos (by simpa using hv)] at hq
    cases hq
    exact hv ▸ hs
  · rw [find?_cons_of_neg (by simpa using hv)] at hq
    exact (h.shown v q hq).alters ha (Ne.symm hv)

/-- Bytes nobody knows may be written. -/
theorem Laid.fill (h : Laid d pd m₀ top log m) (hpd : pd ∈ d)
    (hb : ∀ put ∈ log, put.bytes = fun _ => none) (page : BitVec 9 → BitVec 64) :
    Laid d pd m₀ top log (m.fill top page) := by
  have hword (f : Ptr) (hf : m.IsTable d f) : (m.fill top page).word f = m.word f :=
    fill_ne fun he => h.top.page (he ▸ hf)
  have hown {q : Ptr} (hq : Own d m q) : Own d (m.fill top page) q :=
    ⟨hq.frame, hq.refs, hq.unpinned, fun ht => hq.page ((Ledger.isTable_eq hword q).1 ht)⟩
  obtain ⟨x, hl⟩ := h.balanced
  refine ⟨⟨x, hl.fill h.top.page page⟩, hown h.top, h.pinned, fun v put hput => ?_⟩
  obtain ⟨q, hleaf, hq, -⟩ := h.shown v put hput
  refine ⟨q, (Ledger.leaf_eq_of_word hword hpd v).trans hleaf, hown hq, fun o b hbytes => ?_⟩
  rw [hb put (mem_of_find?_eq_some hput)] at hbytes
  cases hbytes

theorem Puts.step (h : Puts d pd body put) (hm : Unless m₀ (Laid d pd m₀ top log) m)
    (hok : (body m).2 = true) : Unless m₀ (Laid d pd m₀ top (put :: log)) (body m).1 := by
  refine hm.step (h.nulls m) fun hlaid hn => ?_
  obtain ⟨x, hl⟩ := hlaid.balanced
  obtain ⟨ha, hs⟩ := h.put m x hl hok hn
  exact hlaid.cons ha hs

end

/-! ### The stack and the segments -/

def stackPut (n : Nat) : Put :=
  ⟨Vpn.of (userStackTop - BitVec.ofNat 64 (n * Memory.pageSize)), 0x7#64 ||| pageNx, fun _ => none⟩

def segPut (f : ElfFile) (ph : Phdr) (page : BitVec 64) : Put :=
  ⟨Vpn.of page, segFlags ph, fun o => segByte f ph (page.toNat + o.toNat)⟩

/-- The pages of an image, the one mapped last first. -/
def stackPuts : List Put := (List.range userStackInitPages).reverse.map stackPut
def segPuts (f : ElfFile) : List Put :=
  f.loads.reverse.flatMap fun ph => (pages ph.startPage ph.endPage).reverse.map (segPut f ph)

section
variable {d : Set Ptr} {pd top : Ptr} {m₀ m m' : Machine} {x : Ptr → Nat} {log : List Put}
  {f : ElfFile} {ph : Phdr} {page : BitVec 64}

theorem putPage_plain {m₁ m₂ : Machine} {p : Ptr} {va flags : BitVec 64} (hl : Ledger m d x)
    (hpd : pd ∈ d) (hv : (of va).User) (hf : flags &&& pageUser = pageUser) (ht : m.Took m₁ p)
    (hm : m₂ = m₁ ∨ ∃ page, m₂ = m₁.fill p page)
    (hn : (m₂.mapPageDir pd p va flags).events.nulls = m.events.nulls) :
    Alters d pd {of va} m (m₂.mapPageDir pd p va flags) ∧
      (m₂.mapPageDir pd p va flags).leaf pd (of va) = userLeaf p flags ∧
      Own d (m₂.mapPageDir pd p va flags) p := by
  have hput := putPage hl hpd hv hf ht hm hn ((m₂.mapPageDir pd p va flags).word p)
  rwa [← (Machine.Writes.refl).eq_fill] at hput

theorem loadStackPage_puts (hpd : pd ∈ d) {n : Nat} (hn : n < userStackInitPages) :
    Puts d pd (Machine.loadStackPage pd · n) (stackPut n) := by
  have hlow : ∀ n < userStackInitPages,
      userStackTop - BitVec.ofNat 64 (n * Memory.pageSize) < userSpaceEnd := by decide
  have huser := user_of_lt (hlow n hn)
  refine ⟨fun m => ?_, fun m x hl hok hnull => ?_⟩
  · rw [Machine.loadStackPage]
    dsimp only
    split
    · exact allocPage_nulls m
    · exact (allocPage_nulls m).trans (mapPageDir_nulls ..)
  · rcases allocPage_cases hl.sound with ⟨hzero, -⟩ | htook
    · rw [Machine.loadStackPage] at hok
      simp only [hzero, if_true] at hok
      cases hok
    · rw [Machine.loadStackPage] at hnull ⊢
      dsimp only at hnull ⊢
      rw [if_neg htook.frame.ne_zero] at hnull ⊢
      obtain ⟨ha, hleaf, hown⟩ := putPage_plain hl hpd huser (by decide) htook (.inl rfl) hnull
      exact ⟨ha, _, hleaf, hown, fun o b hb => nomatch hb⟩

theorem loadSegmentPage_puts (hpd : pd ∈ d) (hfile : ph.inFile f.size = true)
    (h : ph.inUserSpace = true) (hpage : page ∈ pages ph.startPage ph.endPage) :
    Puts d pd (Machine.loadSegmentPage pd f ph · page) (segPut f ph page) := by
  have ht := Checked.touches_pages h hpage
  refine ⟨fun m => ?_, fun m x hl hok hnull => loadSegmentPage_shown hfile h ht hl hpd hok hnull⟩
  by_cases hzero : m.allocPage.2 = 0#64
  · rw [Machine.loadSegmentPage]
    simp only [hzero, if_true]
    exact allocPage_nulls m
  have hsize := f.size.isLt
  have hin := Checked.inFile_bounds hfile
  have hwrites := (copySegment_writes hfile h ht
    (m.allocPage.1.mapPageDir pd m.allocPage.2 page (segFlags ph)) m.allocPage.2).1.trans
      (zeroTail_writes h ht (by omega) _ m.allocPage.2).1
  rw [loadSegmentPage_eq hzero]
  dsimp only
  rw [hwrites.events]
  exact (allocPage_nulls m).trans (mapPageDir_nulls ..)

theorem loadSegment_laid (hpd : pd ∈ d) (hok : (m.loadSegment pd f ph).2 = true)
    (hm : Unless m₀ (Laid d pd m₀ top log) m) :
    Unless m₀ (Laid d pd m₀ top ((pages ph.startPage ph.endPage).reverse.map (segPut f ph) ++ log))
      (m.loadSegment pd f ph).1 := by
  rw [Machine.loadSegment] at hok ⊢
  split at hok
  case isFalse => cases hok
  case isTrue hc =>
    rw [if_pos hc]
    rw [Bool.and_eq_true, Bool.and_eq_true] at hc
    have hlogs := forEach_logs (R := fun log => Unless m₀ (Laid d pd m₀ top log))
      (S := fun page => [segPut f ph page]) (pages ph.startPage ph.endPage)
      (fun page hpage log s hs hok => (loadSegmentPage_puts hpd hc.1.1 hc.1.2 hpage).step hs hok)
      hm hok
    rwa [← map_eq_flatMap] at hlogs

theorem loadStack_laid (hl : Ledger m d x) (hpd : pd ∈ d) (hok : (m.loadStack pd).2 = true) :
    ∃ top, Unless m (Laid d pd m top stackPuts) (m.loadStack pd).1 := by
  rcases allocPage_cases hl.sound with ⟨hzero, -⟩ | htook
  · rw [Machine.loadStack] at hok
    simp only [hzero, if_true] at hok
    cases hok
  refine ⟨m.allocPage.2, ?_⟩
  have hfirst : Unless m (Laid d pd m m.allocPage.2 [stackPut 0])
      (m.allocPage.1.mapPageDir pd m.allocPage.2 userStackTop (0x7#64 ||| pageNx)) := by
    refine .start ((allocPage_nulls m).trans (mapPageDir_nulls ..)) fun hn => ?_
    obtain ⟨ha, hleaf, hown⟩ := putPage_plain hl hpd (user_of_lt (by decide)) (by decide)
      htook (.inl rfl) hn
    refine ⟨ha.balanced, hown, ha.pinned, fun v put hput => ?_⟩
    have hv := find?_some hput
    obtain rfl := mem_singleton.mp (mem_of_find?_eq_some hput)
    obtain rfl := eq_of_beq hv
    exact ⟨_, hleaf, hown, fun o b hb => nomatch hb⟩
  rw [Machine.loadStack] at hok ⊢
  dsimp only at hok ⊢
  rw [if_neg htook.frame.ne_zero] at hok ⊢
  generalize m.allocPage.1.mapPageDir pd m.allocPage.2 userStackTop (0x7#64 ||| pageNx) = m₁
    at hfirst hok
  have hrest := forEach_logs (R := fun log => Unless m (Laid d pd m m.allocPage.2 log))
    (S := fun n => [stackPut n]) (range' 1 (userStackInitPages - 1))
    (fun n hn log s hs hok => (loadStackPage_puts hpd (by
      have := mem_range'_1.mp hn
      omega)).step hs hok) hfirst
  cases hr : forEach (Machine.loadStackPage pd) (range' 1 (userStackInitPages - 1)) m₁ with
  | mk m₂ ok =>
    rw [hr] at hok hrest
    cases ok with
    | false => cases hok
    | true =>
      have hrest : Unless m (Laid d pd m m.allocPage.2 stackPuts) m₂ := hrest rfl
      refine hrest.step (Nat.le_refl _) fun hlaid _ => hlaid.fill hpd (fun put hput => ?_) _
      obtain ⟨n, -, rfl⟩ := mem_map.mp hput
      rfl

/-- The stack and the segments, with every allocation granted. -/
theorem loadImage_laid (hl : Ledger m d x) (hpd : pd ∈ d) (hok : (m.loadImage pd f).2 = true) :
    (∃ top, Unless m (Laid d pd m top (segPuts f ++ stackPuts)) (m.loadImage pd f).1) ∧
      ∀ ph ∈ f.loads, ph.inUserSpace = true := by
  rw [Machine.loadImage] at hok ⊢
  cases hr : m.loadStack pd with
  | mk m₁ ok =>
    rw [hr] at hok
    cases ok with
    | false => cases hok
    | true =>
      obtain ⟨top, hstack⟩ := loadStack_laid hl hpd (by rw [hr])
      rw [hr] at hstack
      dsimp only at hok ⊢
      split at hok
      case isFalse => cases hok
      case isTrue hentry =>
        rw [if_pos hentry]
        refine ⟨⟨top, forEach_logs (R := fun log => Unless m (Laid d pd m top log)) f.loads
          (fun ph _ log s hs hok => loadSegment_laid hpd hok hs) hstack hok⟩, ?_⟩
        have hall := forEach_logs (R := fun (log : List Phdr) _ => ∀ ph ∈ log, ph.inUserSpace = true)
          (S := fun ph => [ph]) f.loads (fun ph _ log s hs hok => ?_) (forall_mem_nil _) hok
        · simpa using hall
        rw [Machine.loadSegment] at hok
        split at hok
        case isFalse => cases hok
        case isTrue hc =>
          rw [Bool.and_eq_true, Bool.and_eq_true] at hc
          exact forall_mem_cons.mpr ⟨hc.1.2, hs⟩

end

/-! ### The shared libc -/

def Masters (m : Machine) (segs : List Libseg) : Prop :=
  ∀ s ∈ segs, ∀ pg ∈ s.placed, pg.1 < userSpaceEnd ∧ IsFrame pg.2 ∧ m.pinned pg.2 = true

def libPages (segs : List Libseg) : Set Vpn := {v | ∃ s ∈ segs, ∃ pg ∈ s.placed, Vpn.of pg.1 = v}

section
variable {d : Set Ptr} {pd : Ptr} {V W : Set Vpn} {m m' m'' : Machine} {x : Ptr → Nat}

theorem Alters.trans (h : Alters d pd V m m') (h' : Alters d pd W m' m'') (hW : W ⊆ V) :
    Alters d pd V m m'' where
  balanced := h'.balanced
  leaf v hv := (h'.leaf v fun hw => hv (hW hw)).trans (h.leaf v hv)
  own p hp := by
    obtain ⟨hp', hword⟩ := h.own p hp
    obtain ⟨hp'', hword'⟩ := h'.own p hp'
    exact ⟨hp'', hword'.trans hword⟩
  pinned p hp hpin := h'.pinned p hp (h.pinned p hp hpin)

theorem mapMaster_alters (hl : Ledger m d x) (hpd : pd ∈ d) (s : Libseg) {pg : BitVec 64 × Ptr}
    (hva : pg.1 < userSpaceEnd) (hframe : IsFrame pg.2) (hpin : m.pinned pg.2 = true)
    (hn : (Machine.mapMaster pd s m pg).1.events.nulls = m.events.nulls) :
    Alters d pd {of pg.1} m (Machine.mapMaster pd s m pg).1 := by
  have huser := user_of_lt hva
  rw [Machine.mapMaster] at hn ⊢
  dsimp only at hn ⊢
  split
  case isTrue hw =>
    rw [if_pos hw] at hn
    rcases allocPage_cases hl.sound with ⟨hzero, href⟩ | htook
    · rw [if_pos hzero] at hn
      rw [href.events] at hn
      exact absurd hn (Nat.succ_ne_self _)
    · rw [if_neg htook.frame.ne_zero] at hn ⊢
      exact (putPage_plain hl hpd huser (by decide) htook (.inr ⟨_, rfl⟩) hn).1
  case isFalse hw =>
    rw [if_neg hw] at hn
    exact putMaster hl hpd huser hframe hpin s.exec hn

theorem mapMaster_nulls (s : Libseg) (m : Machine) (pg : BitVec 64 × Ptr) :
    m.events.nulls ≤ (Machine.mapMaster pd s m pg).1.events.nulls := by
  rw [Machine.mapMaster]
  dsimp only
  split
  · split
    · exact allocPage_nulls m
    · exact (allocPage_nulls m).trans
        (mapPageDir_nulls (m.allocPage.1.fill m.allocPage.2 (m.allocPage.1.word pg.2)) ..)
  · exact mapPageRo_nulls m pd pg.2 pg.1 s.exec

theorem libsegMap_nulls (m : Machine) (segs : List Libseg) :
    m.events.nulls ≤ (m.libsegMap pd segs).events.nulls :=
  forEach_keeps (P := fun m' : Machine => m.events.nulls ≤ m'.events.nulls) segs
    (fun s _ _ hm => forEach_keeps (P := fun m' : Machine => m.events.nulls ≤ m'.events.nulls)
      s.placed (fun pg _ m' hm' => hm'.trans (mapMaster_nulls s m' pg)) hm) (Nat.le_refl _)

theorem libsegMap_alters (hl : Ledger m d x) (hpd : pd ∈ d) {segs : List Libseg}
    (hs : Masters m segs) : Unless m (Alters d pd (libPages segs) m) (m.libsegMap pd segs) := by
  refine forEach_keeps segs (fun s hmem m₁ hm₁ => ?_)
    (.inr ⟨rfl, ⟨x, hl⟩, fun _ _ => rfl, fun _ hp => ⟨hp, rfl⟩, fun _ _ hpin => hpin⟩)
  refine forEach_keeps s.placed (fun pg hpg m₂ hm₂ => ?_) hm₁
  obtain ⟨hva, hframe, hpin⟩ := hs s hmem pg hpg
  refine hm₂.step (mapMaster_nulls s m₂ pg) fun ha hn => ?_
  obtain ⟨y, hl₂⟩ := ha.balanced
  refine ha.trans (mapMaster_alters hl₂ hpd s hva hframe (ha.pinned _ hframe hpin) hn) ?_
  rintro v rfl
  exact ⟨s, hmem, pg, hpg, rfl⟩

end

end Nyx.Paging
