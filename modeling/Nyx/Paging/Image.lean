import Nyx.Paging.Loading

/-! The address space of a new program.

The segments are loaded after the stack and before the shared libc, each into fresh pages. A page
two segments share is mapped twice, and what the first one put there is lost. -/
namespace Nyx.Paging
open Machine
open Process (userSpaceEnd)
open Process.Kernel (pageFloor)
open Lib

def Phdr.vpns (ph : Phdr) : Set Vpn := {v | ∃ page ∈ pages ph.startPage ph.endPage, Vpn.of page = v}

theorem mem_pages {ph : Phdr} (h : ph.inUserSpace = true) {page : BitVec 64} :
    page ∈ pages ph.startPage ph.endPage ↔ Checked.Touches ph page ∧ page.toNat % 4096 = 0 := by
  have hbounds := Checked.inUserSpace_bounds h
  have hstart := Checked.toNat_startPage ph
  have hend := Checked.toNat_endPage h
  have hnth (n : Nat) (hn : n * 4096 + 4096 ≤ ph.endPage.toNat - ph.startPage.toNat) :
      (ph.startPage + BitVec.ofNat 64 (n * Memory.pageSize)).toNat = ph.startPage.toNat + n * 4096 := by
    rw [BitVec.toNat_add, BitVec.toNat_ofNat, Memory.pageSize]
    omega
  refine ⟨fun hp => ⟨Checked.touches_pages h hp, ?_⟩, fun hpage => ?_⟩
  · obtain ⟨n, hn, rfl⟩ := List.mem_map.mp hp
    rw [List.mem_range, Memory.pageSize] at hn
    rw [hnth n (by omega), hstart]
    omega
  · obtain ⟨ht, ha⟩ := hpage
    rw [Checked.Touches] at ht
    refine List.mem_map.mpr ⟨(page.toNat - ph.startPage.toNat) / 4096, ?_, ?_⟩
    · rw [List.mem_range, Memory.pageSize]
      omega
    · apply BitVec.eq_of_toNat_eq
      rw [hnth _ (by omega)]
      omega

theorem toNat_pageOffset (a : BitVec 64) : (pageOffset a).toNat = a.toNat % 4096 := by
  rw [pageOffset, BitVec.extractLsb'_toNat, Nat.shiftRight_zero]

section
variable {d : Set Ptr} {m m' : Machine} {x : Ptr → Nat} {libc : Option (List Libseg)} {f : ElfFile}
  {img : Machine.Loaded}

theorem elfLoadImage_shown (hl : Ledger m d x) (hload : m.elfLoadImage libc f = (m', some img))
    (hn : m'.events.nulls = m.events.nulls) (hs : Masters m (libc.getD [])) :
    (∃ y, Ledger m' (insert img.pd d) y) ∧ (∀ ph ∈ f.loads, ph.inUserSpace = true) ∧
      ∀ v ∉ libPages (libc.getD []), ∀ put ∈ (segPuts f ++ stackPuts).find? (·.vpn == v),
        Shown (insert img.pd d) img.pd v put.flags put.bytes m' := by
  rw [elfLoadImage] at hload
  split at hload
  case isTrue => cases hload
  case isFalse =>
    dsimp only at hload
    rcases allocPageDirectory_cases hl with ⟨hzero, -⟩ | ⟨hopen, hmoves⟩
    · rw [if_pos hzero] at hload
      cases hload
    rw [if_neg hopen.frame.ne_zero] at hload
    have hl₁ := (hmoves True).ledger hl
    have hpd : m.allocPageDirectory.2 ∈ insert m.allocPageDirectory.2 d := Set.mem_insert ..
    cases hr : m.allocPageDirectory.1.loadImage m.allocPageDirectory.2 f with
    | mk m₂ ok =>
      rw [hr] at hload
      cases ok with
      | false => cases hload
      | true =>
        cases hload
        obtain ⟨⟨top, hlaid⟩, huser⟩ := loadImage_laid hl₁ hpd (by rw [hr])
        rw [hr] at hlaid
        have hsame : _ = m.allocPageDirectory.1.events.nulls :=
          hn.trans (congrArg Events.nulls hopen.events).symm
        have hafter := hsame.le.trans hlaid.le
        have hlaid := hlaid.get ((libsegMap_nulls m₂ (libc.getD [])).trans hsame.le)
        obtain ⟨y, hl₂⟩ := hlaid.balanced
        have hmasters : Masters m₂ (libc.getD []) := fun s hmem pg hpg => by
          obtain ⟨hva, hframe, hpin⟩ := hs s hmem pg hpg
          exact ⟨hva, hframe, hlaid.pinned _ hframe (hopen.pinned ▸ hpin)⟩
        have halters := (libsegMap_alters hl₂ hpd hmasters).get hafter
        exact ⟨halters.balanced, huser, fun v hv put hput => (hlaid.shown v put hput).alters halters hv⟩

theorem find_segPuts {put : Put} {v : Vpn} (h : (segPuts f).find? (·.vpn == v) = some put) :
    ∃ l₁ ph l₂, f.loads = l₁ ++ ph :: l₂ ∧ (∀ ph' ∈ l₂, v ∉ ph'.vpns) ∧
      ∃ page ∈ pages ph.startPage ph.endPage, Vpn.of page = v ∧ put = segPut f ph page := by
  rw [segPuts, List.find?_flatMap, List.findSome?_eq_some_iff] at h
  obtain ⟨after, ph, before, hloads, hput, hafter⟩ := h
  refine ⟨before.reverse, ph, after.reverse, ?_, ?_, ?_⟩
  · rw [← List.reverse_reverse f.loads, hloads]
    simp
  · rintro ph' hph' ⟨page, hpage, hof⟩
    have hnone := List.find?_eq_none.mp (hafter ph' (List.mem_reverse.mp hph'))
    exact hnone _ (List.mem_map_of_mem (List.mem_reverse.mpr hpage)) (beq_iff_eq.mpr hof)
  · obtain ⟨page, hpage, rfl⟩ := List.mem_map.mp (List.mem_of_find?_eq_some hput)
    exact ⟨page, List.mem_reverse.mp hpage,
      eq_of_beq (List.find?_some (p := fun put : Put => put.vpn == v) hput), rfl⟩

theorem segment_shown (hl : Ledger m d x) (hload : m.elfLoadImage libc f = (m', some img))
    (hn : m'.events.nulls = m.events.nulls) (hs : Masters m (libc.getD [])) {v : Vpn}
    (hv : ∃ ph ∈ f.loads, v ∈ ph.vpns) (hlibc : v ∉ libPages (libc.getD [])) :
    ∃ l₁ ph l₂, f.loads = l₁ ++ ph :: l₂ ∧ (∀ ph' ∈ l₂, v ∉ ph'.vpns) ∧
      ∃ page ∈ pages ph.startPage ph.endPage, Vpn.of page = v ∧
        Shown (insert img.pd d) img.pd v (segFlags ph)
          (fun o => segByte f ph (page.toNat + o.toNat)) m' := by
  obtain ⟨-, -, hshown⟩ := elfLoadImage_shown hl hload hn hs
  obtain ⟨ph, hph, page, hpage, hof⟩ := hv
  obtain ⟨put, hput⟩ : ∃ put, (segPuts f).find? (·.vpn == v) = some put := by
    refine Option.isSome_iff_exists.mp (List.find?_isSome.mpr ⟨segPut f ph page, ?_, ?_⟩)
    · rw [segPuts, List.mem_flatMap]
      exact ⟨ph, List.mem_reverse.mpr hph, List.mem_map_of_mem (List.mem_reverse.mpr hpage)⟩
    · exact beq_iff_eq.mpr hof
  have hfirst : (segPuts f ++ stackPuts).find? (·.vpn == v) = some put := by
    rw [List.find?_append, hput, Option.some_or]
  have hpage' := hshown v hlibc put hfirst
  obtain ⟨l₁, ph', l₂, hloads, hlast, page', hmem, hvpn, heq⟩ := find_segPuts hput
  rw [heq] at hpage'
  exact ⟨l₁, ph', l₂, hloads, hlast, page', hmem, hvpn, hpage'⟩

/-- Where no segment has a byte on a page of a later one, each byte of a segment is read back: from
the file, and 0 behind the file's part. -/
theorem elfLoadImage_faithful (hl : Ledger m d x) (hload : m.elfLoadImage libc f = (m', some img))
    (hn : m'.events.nulls = m.events.nulls) (hs : Masters m (libc.getD []))
    (hsizes : ∀ ph ∈ f.loads, ph.filesz ≤ ph.memsz)
    (hapart : f.loads.Pairwise fun ph ph' =>
      ∀ k < ph.memsz.toNat, Vpn.of (ph.vaddr + BitVec.ofNat 64 k) ∉ ph'.vpns)
    (hlibc : ∀ ph ∈ f.loads, Disjoint ph.vpns (libPages (libc.getD []))) :
    ∀ ph ∈ f.loads, (∀ k < ph.filesz.toNat, m'.userByte img.pd (ph.vaddr + BitVec.ofNat 64 k) =
        some (f.data (ph.offset.toNat + k))) ∧
      ∀ k < ph.memsz.toNat, ph.filesz.toNat ≤ k →
        m'.userByte img.pd (ph.vaddr + BitVec.ofNat 64 k) = some 0#8 := by
  intro ph hph
  obtain ⟨⟨y, hl'⟩, huser, -⟩ := elfLoadImage_shown hl hload hn hs
  have hbounds := Checked.inUserSpace_bounds (huser ph hph)
  have hmem (k : Nat) (hk : k < ph.memsz.toNat) :
      m'.userByte img.pd (ph.vaddr + BitVec.ofNat 64 k) = segByte f ph (ph.vaddr.toNat + k) := by
    have ha : (ph.vaddr + BitVec.ofNat 64 k).toNat = ph.vaddr.toNat + k := by
      rw [BitVec.toNat_add, BitVec.toNat_ofNat]
      omega
    have hearlier {l₁ l₂ : List Phdr} {ph' : Phdr} (hloads : f.loads = l₁ ++ ph' :: l₂)
        (hl₁ : ph ∈ l₁) : Vpn.of (ph.vaddr + BitVec.ofNat 64 k) ∉ ph'.vpns := by
      rw [hloads, List.pairwise_append] at hapart
      exact hapart.2.2 ph hl₁ ph' (.head _) k hk
    generalize ph.vaddr + BitVec.ofNat 64 k = a at ha hearlier
    have hend : userSpaceEnd.toNat = 0x800000000000 := by decide
    have hmin : Process.userSpaceMin.toNat = 0x1000 := by decide
    have hstart := Checked.toNat_startPage ph
    have hstop := Checked.toNat_endPage (huser ph hph)
    have hfloor : (pageFloor a).toNat = a.toNat / 4096 * 4096 := toNat_and_not_low ..
    have hin (b : BitVec 64) (hlo : 0x1000 ≤ b.toNat) (hhi : b.toNat < 0x800000000000) :
        InUserSpace b := ⟨BitVec.le_def.mpr (by omega), BitVec.lt_def.mpr (by omega)⟩
    have hv : Vpn.of a ∈ ph.vpns := by
      refine ⟨pageFloor a, (mem_pages (huser ph hph)).mpr ⟨?_, by omega⟩,
        (Vpn.of_inj (hin _ (by omega) (by omega)) (hin a (by omega) (by omega))).mpr (by omega)⟩
      rw [Checked.Touches]
      omega
    obtain ⟨l₁, ph', l₂, hloads, hlast, page, hpage, hof, p, hleaf, hown, hbytes⟩ :=
      segment_shown hl hload hn hs ⟨ph, hph, hv⟩ (Set.disjoint_left.mp (hlibc ph hph) hv)
    obtain rfl : ph = ph' := by
      rcases List.mem_append.mp (hloads ▸ hph) with hl₁ | hl₂
      · exact absurd ⟨page, hpage, hof⟩ (hearlier hloads hl₁)
      rcases List.mem_cons.mp hl₂ with heq | hl₂
      · exact heq
      · exact absurd hv (hlast ph hl₂)
    obtain ⟨⟨hlow, hhigh⟩, haligned⟩ := (mem_pages (huser ph hph)).mp hpage
    have hpa : page.toNat + (pageOffset a).toNat = ph.vaddr.toNat + k := by
      have := (Vpn.of_inj (hin page (by omega) (by omega)) (hin a (by omega) (by omega))).mp hof
      rw [toNat_pageOffset]
      omega
    have hflags := segFlags_user ph
    rw [hl'.userByte_eq (Set.mem_insert ..) (BitVec.lt_def.mpr (by omega)) hleaf
      (by rw [userLeaf_has hown.frame hflags (by decide) (by decide)]; decide)
      (by rw [userLeaf_has hown.frame hflags (by decide) (by decide)]; decide),
      userLeaf_frame hown.frame hflags]
    have hknown : ∃ b, segByte f ph (ph.vaddr.toNat + k) = some b := by
      rw [segByte]
      by_cases hf : k < ph.filesz.toNat
      · exact ⟨_, if_pos (by omega)⟩
      · exact ⟨_, by rw [if_neg (by omega), if_pos (by omega)]⟩
    obtain ⟨b, hb⟩ := hknown
    rw [hb, hbytes (pageOffset a) b (show segByte f ph _ = some b by rw [hpa, hb])]
  have hle := BitVec.le_def.mp (hsizes ph hph)
  refine ⟨fun k hk => ?_, fun k hk hge => ?_⟩
  · rw [hmem k (by omega), segByte, if_pos (by omega), Nat.add_sub_cancel_left]
  · rw [hmem k hk, segByte, if_neg (by omega), if_pos (by omega)]

/-- The page is one of a segment, and of none that is not `P`. -/
def ElfFile.Only (f : ElfFile) (P : Phdr → Prop) (v : Vpn) : Prop :=
  (∃ ph ∈ f.loads, v ∈ ph.vpns) ∧ ∀ ph ∈ f.loads, v ∈ ph.vpns → P ph

def Machine.canWrite (m : Machine) (pd : Ptr) (a : BitVec 64) : Bool :=
  match m.translate pd a true with
  | .page _ => true
  | _ => false

def Machine.canExec (m : Machine) (pd : Ptr) (a : BitVec 64) : Bool :=
  match m.translate pd a false with
  | .page _ => !has (m.leaf pd (Vpn.of a)) pageNx
  | _ => false

/-- The protection is the one the segments ask for exactly if no page belongs only to segments
without `PF_W`: `map_pml4` makes every page writable. -/
theorem elfLoadImage_guards (hl : Ledger m d x) (hload : m.elfLoadImage libc f = (m', some img))
    (hn : m'.events.nulls = m.events.nulls) (hs : Masters m (libc.getD [])) :
    (∀ a : BitVec 64, Vpn.of a ∉ libPages (libc.getD []) →
      (f.Only (fun ph => ph.writable = false) (Vpn.of a) → m'.canWrite img.pd a = false) ∧
      (f.Only (fun ph => ph.exec = false) (Vpn.of a) → m'.canExec img.pd a = false) ∧
      ∀ ph, f.Only (· = ph) (Vpn.of a) → ph.writable = false ∨ ph.exec = false →
        (m'.canWrite img.pd a && m'.canExec img.pd a) = false) ↔
    ∀ a : BitVec 64, Vpn.of a ∉ libPages (libc.getD []) →
      ¬ f.Only (fun ph => ph.writable = false) (Vpn.of a) := by
  obtain ⟨⟨y, hl'⟩, huser, -⟩ := elfLoadImage_shown hl hload hn hs
  constructor
  · intro hclaim a ha honly
    obtain ⟨l₁, ph, l₂, hloads, -, page, hpage, hof, p, hleaf, hown, -⟩ :=
      segment_shown hl hload hn hs honly.1 ha
    have hin := huser ph (by rw [hloads]; simp)
    obtain ⟨⟨-, hhigh⟩, -⟩ := (mem_pages hin).mp hpage
    rw [← hof] at ha honly hleaf
    have hwrites : m'.canWrite img.pd page = true := by
      have hbounds := Checked.inUserSpace_bounds hin
      have hstop := Checked.toNat_endPage hin
      have hend : userSpaceEnd.toNat = 0x800000000000 := by decide
      have hhas {flag : BitVec 64} := @userLeaf_has _ _ hown.frame (segFlags_user ph) flag
      rw [canWrite, hl'.translate_eq (Set.mem_insert ..) (BitVec.lt_def.mpr (by omega)), hleaf,
        verdict, allows, hhas (by decide) (by decide), hhas (by decide) (by decide),
        hhas (by decide) (by decide)]
      rfl
    exact Bool.false_ne_true (((hclaim page ha).1 honly).symm.trans hwrites)
  intro hnone a ha
  have hexec (honly : f.Only (fun ph => ph.exec = false) (Vpn.of a)) :
      m'.canExec img.pd a = false := by
    obtain ⟨l₁, ph, l₂, hloads, -, page, hpage, hof, p, hleaf, -, -⟩ :=
      segment_shown hl hload hn hs honly.1 ha
    have hnx : has (m'.leaf img.pd (Vpn.of a)) pageNx = true := by
      have hflag : segFlags ph &&& pageNx = pageNx := by
        rw [segFlags, honly.2 ph (by rw [hloads]; simp) ⟨page, hpage, hof⟩]
        cases ph.writable <;> decide
      rw [hleaf, userLeaf, hflag, has_lor, show has pageNx pageNx = true by decide, Bool.or_true]
    rw [canExec]
    split
    · rw [hnx, Bool.not_true]
    · rfl
  refine ⟨fun honly => absurd honly (hnone a ha), hexec, fun ph honly hlacks => ?_⟩
  rcases hlacks with hw | hx
  · exact absurd ⟨honly.1, fun q hq hqv => honly.2 q hq hqv ▸ hw⟩ (hnone a ha)
  · rw [hexec ⟨honly.1, fun q hq hqv => honly.2 q hq hqv ▸ hx⟩, Bool.and_false]

end

/-! ### Two programs -/

/-- An executable of 512 bytes that starts at 0x1000, with the given bytes behind its header. -/
def program (segments : BitVec 8) (bytes : List (Nat × BitVec 8)) : ElfFile where
  size := 512#32
  data i := (([(0, 0x7F#8), (1, 0x45#8), (2, 0x4C#8), (3, 0x46#8), (4, 2#8), (5, 1#8), (16, 2#8),
    (18, 62#8), (25, 0x10#8), (32, 64#8), (54, 56#8), (56, segments)] ++ bytes).lookup i).getD 0#8

/-- Four bytes of code at 0x1000, of which the file holds two. -/
def plain : ElfFile := program 1#8
  [(64, 1#8), (68, 5#8), (72, 200#8), (81, 0x10#8), (96, 2#8), (104, 4#8), (200, 0xAA#8)]

/-- The same, and one byte of data at 0x1080. -/
def sharing : ElfFile := program 2#8
  [(64, 1#8), (68, 5#8), (72, 200#8), (81, 0x10#8), (96, 2#8), (104, 4#8), (120, 1#8), (124, 6#8),
    (128, 204#8), (136, 0x80#8), (137, 0x10#8), (152, 1#8), (160, 1#8), (200, 0xAA#8), (204, 0xCC#8)]

theorem ledger_small : Ledger small ∅ small.refs := .nowhere sound_small fun _ => rfl

theorem masters_none (m : Machine) : Masters m ((none : Option (List Libseg)).getD []) := by
  intro s hs
  cases hs

theorem loaded_at {r : Machine × Option Machine.Loaded} (pd : Ptr)
    (h : r.2.map (·.pd) = some pd) : ∃ img, r = (r.1, some img) ∧ img.pd = pd := by
  obtain ⟨img, himg, hpd⟩ := Option.map_eq_some_iff.mp h
  exact ⟨img, Prod.ext rfl himg, hpd⟩

theorem elfLoadImage_faithful_plain :
    (small.elfLoadImage none plain).1.userByte 0x1000#64 0x1000#64 = some 0xAA#8 := by
  have hloads : plain.loads = [⟨1#32, 5#32, 200#64, 0x1000#64, 2#64, 4#64⟩] := by decide +kernel
  obtain ⟨img, hload, hpd⟩ := loaded_at (r := small.elfLoadImage none plain)
    0x1000#64 (by decide +kernel)
  have hbytes := elfLoadImage_faithful ledger_small hload (by decide +kernel) (masters_none _)
    (by rw [hloads]; decide) (by rw [hloads]; exact List.pairwise_singleton ..)
    (fun ph _ => Set.disjoint_right.mpr fun v hv => absurd hv (by simp [libPages])) _
    (by rw [hloads]; exact .head _)
  have hbyte := hbytes.1 0 (by decide)
  rw [hpd] at hbyte
  generalize (small.elfLoadImage none plain).1 = m at hbyte
  exact hbyte.trans (congrArg some (by decide +kernel))

/-- Two segments without a byte in common: the page of the second one replaces that of the first. -/
theorem elfLoadImage_loses_bytes : sharing.loads = [⟨1#32, 5#32, 200#64, 0x1000#64, 2#64, 4#64⟩,
        ⟨1#32, 6#32, 204#64, 0x1080#64, 1#64, 1#64⟩] ∧
      (small.elfLoadImage none sharing).1.events.nulls = small.events.nulls ∧
      (small.elfLoadImage none sharing).2.map (·.pd) = some 0x1000#64 ∧
      sharing.data 200 = 0xAA#8 ∧
      (small.elfLoadImage none sharing).1.userByte 0x1000#64 0x1000#64 = some 0#8 := by
  decide +kernel

def dataOnly : ElfFile := program 1#8
  [(64, 1#8), (68, 6#8), (72, 200#8), (81, 0x10#8), (96, 2#8), (104, 4#8)]

theorem elfLoadImage_guards_data :
    (small.elfLoadImage none dataOnly).1.canExec 0x1000#64 0x1000#64 = false := by
  have hloads : dataOnly.loads = [⟨1#32, 6#32, 200#64, 0x1000#64, 2#64, 4#64⟩] := by decide +kernel
  obtain ⟨img, hload, hpd⟩ := loaded_at (r := small.elfLoadImage none dataOnly)
    0x1000#64 (by decide +kernel)
  have hguards := elfLoadImage_guards ledger_small hload (by decide +kernel) (masters_none _)
  rw [hpd] at hguards
  refine (hguards.mpr (fun a _ honly => ?_) 0x1000#64 (by simp [libPages])).2.1
    ⟨⟨_, by rw [hloads]; exact .head _, 0x1000#64, by decide, rfl⟩, ?_⟩
  · obtain ⟨ph, hph, hv⟩ := honly.1
    have hw := honly.2 ph hph hv
    rw [hloads] at hph
    obtain rfl := List.mem_singleton.mp hph
    exact absurd hw (by decide)
  rw [hloads]
  intro ph hph _
  obtain rfl := List.mem_singleton.mp hph
  decide

/-- Code that is not writable in the file is writable in memory. -/
theorem elfLoadImage_writable_code : plain.loads = [⟨1#32, 5#32, 200#64, 0x1000#64, 2#64, 4#64⟩] ∧
      (small.elfLoadImage none plain).1.events.nulls = small.events.nulls ∧
      (small.elfLoadImage none plain).2.map (·.pd) = some 0x1000#64 ∧
      (small.elfLoadImage none plain).1.canWrite 0x1000#64 0x1000#64 = true ∧
      (small.elfLoadImage none plain).1.canExec 0x1000#64 0x1000#64 = true := by
  decide +kernel

end Nyx.Paging
