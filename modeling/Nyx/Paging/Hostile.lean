import Nyx.Lib.Wrapping
import Nyx.Paging.Elf

/-! The loaders with every access checked.

`Checked` repeats `elf_load_image` and `libseg_load` with a check before each access: a read of the
image is at an index below its size, a write to a frame stays in it, a page is mapped inside user
space, and a segment has room for the frame pointer that is stored. A failed check, or a loop over
pages that does not end in the turns the largest segment needs, is `none`. Where the source compares
before it reads, so does this; a program header is read as a whole. -/
namespace Nyx.Paging
open Machine List
open Process (userSpaceMin userSpaceEnd)
open Process.Kernel (pageFloor roundUp)
open Lib

namespace Checked

/-! ### The image -/

def byte (f : ElfFile) (i : Nat) : Option (BitVec 8) :=
  if i < f.size.toNat then some (f.data i) else none

def u16 (f : ElfFile) (o : Nat) : Option (BitVec 16) := do
  let hi ← byte f (o + 1)
  let lo ← byte f o
  return hi ++ lo

def u32 (f : ElfFile) (o : Nat) : Option (BitVec 32) := do
  let hi ← u16 f (o + 2)
  let lo ← u16 f o
  return hi ++ lo

def u64 (f : ElfFile) (o : Nat) : Option (BitVec 64) := do
  let hi ← u32 f (o + 4)
  let lo ← u32 f o
  return hi ++ lo

def validate (f : ElfFile) : Option Bool := do
  if f.size.toNat < ElfFile.headerSize then return false
  if (← u32 f 0) != ElfFile.elfMagic then return false
  if (← byte f 4) != 2#8 then return false
  if (← byte f 5) != 1#8 then return false
  if (← u16 f 18) != 62#16 then return false
  if (← u16 f 16) != 2#16 then return false
  return (← u16 f 56) != 0#16

def wellFormed (f : ElfFile) : Option Bool := do
  if !(← validate f) then return false
  if (← u16 f 54).toNat != phdrSize then return false
  let phoff ← u64 f 32
  if f.size.setWidth 64 < phoff then return false
  return (← u16 f 56).toNat * phdrSize ≤ f.size.toNat - phoff.toNat

def phdr (f : ElfFile) (phoff i : Nat) : Option Phdr := do
  let o := phoff + i * phdrSize
  return ⟨← u32 f o, ← u32 f (o + 4), ← u64 f (o + 8), ← u64 f (o + 16), ← u64 f (o + 32),
    ← u64 f (o + 40)⟩

def loads (f : ElfFile) : Option (List Phdr) := do
  let phoff ← u64 f 32
  let phnum ← u16 f 56
  let phdrs ← (List.range phnum.toNat).mapM (phdr f phoff.toNat)
  return phdrs.filter (·.type == ptLoad)

/-! ### Frames and pages -/

def copyIn (m : Machine) (p : Ptr) (off n : Nat) (src : Nat → BitVec 8) : Option Machine :=
  if off + n ≤ 4096 then some (m.copyIn p off n src) else none

variable (m : Machine) (pd : Ptr)

def copySegment (f : ElfFile) (ph : Phdr) (page : BitVec 64) (p : Ptr) : Option Machine :=
  let cs := ph.copyStart page
  let ce := ph.copyEnd page
  if cs < ce then
    let fileOff := (ph.offset + (cs - ph.vaddr)).toNat
    let n := (ce - cs).toNat
    if fileOff + n ≤ f.size.toNat then
      copyIn m p (cs - page).toNat n fun k => f.data (fileOff + k)
    else none
  else some m

def Mappable (va : BitVec 64) : Prop := pageFloor userSpaceMin ≤ va ∧ va < userSpaceEnd

instance (va : BitVec 64) : Decidable (Mappable va) := inferInstanceAs (Decidable (_ ∧ _))

def mapPageDir (m : Machine) (pml4 phys : Ptr) (va flags : BitVec 64) : Option Machine :=
  if Mappable va then some (m.mapPageDir pml4 phys va flags) else none

def mapPageRo (m : Machine) (pml4 phys : Ptr) (va : BitVec 64) (exec : Bool) : Option Machine :=
  if Mappable va then some (m.mapPageRo pml4 phys va exec) else none

def forEach {σ α : Type} (body : σ → α → Option (σ × Bool)) : List α → σ → Option (σ × Bool)
  | [], s => some (s, true)
  | x :: rest, s => do
    match ← body s x with
    | (s, true) => forEach body rest s
    | (s, false) => return (s, false)

/-- `for (page = start; page < stop; page += 4096)`, as the machine computes it. -/
def forPages {σ : Type} (body : σ → BitVec 64 → Option (σ × Bool)) (stop : BitVec 64) :
    (turns : Nat) → (page : BitVec 64) → σ → Option (σ × Bool)
  | 0, _, _ => none
  | turns + 1, page, s =>
    if page < stop then do
      match ← body s page with
      | (s, true) => forPages body stop turns (page + 0x1000#64) s
      | (s, false) => return (s, false)
    else some (s, true)

/-! ### `libseg_load` -/

def loadMaster (f : ElfFile) (ph : Phdr) (m : Machine) (page : BitVec 64) :
    Option (Machine × Option Ptr) :=
  let (m, frame) := m.allocPage
  if frame = 0#64 then some (m, none)
  else do
    let m ← copySegment ((m.pagePin frame).zeroPage frame) f ph page frame
    return (m, some frame)

def loadMasters (f : ElfFile) (ph : Phdr) : List (BitVec 64) → Machine → List Ptr →
    Option (Machine × List Ptr × Bool)
  | [], m, taken => some (m, taken, true)
  | page :: rest, m, taken => do
    match ← loadMaster f ph m page with
    | (m, none) => return (m, taken, false)
    | (m, some frame) =>
      if taken.length < maxSegPages then loadMasters f ph rest m (taken ++ [frame]) else none

def loadSegs (f : ElfFile) : List Phdr → Machine → List Libseg →
    Option (Machine × Option (List Libseg))
  | [], m, segs => some (m, some segs)
  | ph :: rest, m, segs =>
    let lost := (segs.map (·.frames.length)).sum
    if segs.length ≥ maxSegs then some (m, some segs)
    else if ph.memsz < ph.filesz ∨ ¬ ph.inFile f.size ∨ ¬ ph.inUserSpace then
      some ({m with events := m.events.orphan lost}, none)
    else do
      match ← loadMasters f ph ph.segPages m [] with
      | (m, taken, true) =>
        loadSegs f rest m (segs ++ [⟨ph.startPage, ph.writable, ph.exec, taken⟩])
      | (m, taken, false) =>
        return ({m with events := m.events.orphan (lost + taken.length)}, none)

def libsegLoad (f : ElfFile) : Option (Machine × Option (List Libseg)) := do
  if !(← wellFormed f) then return (m, none)
  loadSegs f (← loads f) m []

/-! ### `elf_load_image` -/

def mapMaster (pml4 : Ptr) (s : Libseg) (m : Machine) (page : BitVec 64 × Ptr) :
    Option (Machine × Bool) :=
  let (va, master) := page
  if s.writable then
    let (m, fresh) := m.allocPage
    if fresh = 0#64 then some (m, false)
    else do
      return (← mapPageDir (m.fill fresh (m.word master)) pml4 fresh va (0x7#64 ||| pageNx), true)
  else do
    return ((← mapPageRo m pml4 master va s.exec).pageIncref master, true)

def libsegMap (pml4 : Ptr) (segs : List Libseg) : Option Machine := do
  return (← forEach (fun m s => forEach (mapMaster pml4 s) s.placed m) segs m).1

def loadStackPage (m : Machine) (n : Nat) : Option (Machine × Bool) :=
  let (m, pg) := m.allocPage
  if pg = 0#64 then some (m, false)
  else do
    return (← mapPageDir m pd pg (userStackTop - BitVec.ofNat 64 (n * Memory.pageSize))
      (0x7#64 ||| pageNx), true)

def loadStack : Option (Machine × Bool) :=
  let (m, stackPhys) := m.allocPage
  if stackPhys = 0#64 then some (m, false)
  else do
    let m ← mapPageDir m pd stackPhys userStackTop (0x7#64 ||| pageNx)
    match ← forEach (loadStackPage pd) (List.range' 1 (userStackInitPages - 1)) m with
    | (m, false) => return (m, false)
    | (m, true) => return (← copyIn m stackPhys (4096 - 32) 32 fun _ => 0#8, true)

def loadSegmentPage (f : ElfFile) (ph : Phdr) (m : Machine) (page : BitVec 64) :
    Option (Machine × Bool) :=
  let (m, phys) := m.allocPage
  if phys = 0#64 then some (m, false)
  else do
    let flags := (if ph.writable then 0x7#64 else 0x5#64) ||| (if ph.exec then 0#64 else pageNx)
    let m ← mapPageDir m pd phys page flags
    let m ← copySegment m f ph page phys
    let pageEnd := page + 0x1000#64
    let dataEnd := ph.vaddr + ph.filesz
    let memEnd := ph.vaddr + ph.memsz
    if dataEnd < pageEnd ∧ page < memEnd then
      let zeroStart := if page < dataEnd then (dataEnd - page).toNat else 0
      let zeroEnd := if memEnd < pageEnd then (memEnd - page).toNat else 4096
      if zeroStart < zeroEnd then
        return (← copyIn m phys zeroStart (zeroEnd - zeroStart) fun _ => 0#8, true)
      else return (m, true)
    else return (m, true)

/-- The turns the page loop of the largest segment takes, and the test that ends it. -/
def segmentTurns : Nat := 0x10000000 / 4096 + 2

def loadSegment (f : ElfFile) (m : Machine) (ph : Phdr) : Option (Machine × Bool) :=
  if ph.inFile f.size && ph.inUserSpace && ph.memsz ≤ Machine.elfMaxSegment then
    forPages (loadSegmentPage pd f ph) ph.endPage segmentTurns ph.startPage m
  else some (m, false)

def loadImage (f : ElfFile) : Option (Machine × Bool) := do
  match ← loadStack m pd with
  | (m, false) => return (m, false)
  | (m, true) =>
    let entry ← u64 f 24
    if userSpaceMin ≤ entry ∧ entry < userSpaceEnd then
      forEach (loadSegment pd f) (← loads f) m
    else return (m, false)

def elfLoadImage (libc : Option (List Libseg)) (f : ElfFile) :
    Option (Machine × Option Machine.Loaded) := do
  if !(← wellFormed f) then return (m, none)
  let (m, pd) := m.allocPageDirectory
  if pd = 0#64 then return (m, none)
  match ← loadImage m pd f with
  | (m, false) => return (m.freePageDirectory pd, none)
  | (m, true) =>
    let m ← libsegMap m pd (libc.getD [])
    return (m, some ⟨pd, ← u64 f 24, userStackTop + 4096#64 - 32#64, roundUp (Machine.imageEnd f)⟩)

/-! ### No check on the image fails -/

section Image
variable {f : ElfFile} {o : Nat}

theorem byte_eq (h : o < f.size.toNat) : byte f o = some (f.data o) := if_pos h

theorem u16_eq (h : o + 2 ≤ f.size.toNat) : u16 f o = some (f.u16 o) := by
  rw [u16, byte_eq (by omega), byte_eq (by omega)]
  rfl

theorem u32_eq (h : o + 4 ≤ f.size.toNat) : u32 f o = some (f.u32 o) := by
  rw [u32, u16_eq (by omega), u16_eq (by omega)]
  rfl

theorem u64_eq (h : o + 8 ≤ f.size.toNat) : u64 f o = some (f.u64 o) := by
  rw [u64, u32_eq (by omega), u32_eq (by omega)]
  rfl

theorem validate_eq (f : ElfFile) : validate f = some f.validate := by
  unfold validate ElfFile.validate
  by_cases hsize : f.size.toNat < ElfFile.headerSize
  · simp [hsize, Nat.not_le.mpr hsize]
  have h64 : 64 ≤ f.size.toNat := Nat.not_lt.mp hsize
  simp (disch := omega) only [hsize, u32_eq, u16_eq, byte_eq, Option.bind_eq_bind,
    Option.bind_some, if_false]
  simp only [Option.pure_def, bne_iff_ne, ne_eq]
  split_ifs <;> simp_all [ElfFile.eIdent, ElfFile.eMachine, ElfFile.eType, ElfFile.ePhnum]

theorem validate_size (h : f.validate = true) : 64 ≤ f.size.toNat := by
  simp only [ElfFile.validate, Bool.and_eq_true, decide_eq_true_eq] at h
  exact h.1.1.1.1.1.1

theorem wellFormed_eq (f : ElfFile) : wellFormed f = some f.wellFormed := by
  unfold wellFormed ElfFile.wellFormed
  rw [validate_eq]
  cases hv : f.validate with
  | false => rfl
  | true =>
    have h64 := validate_size hv
    simp (disch := omega) only [u64_eq, u16_eq, Option.bind_eq_bind, Option.bind_some]
    rw [ElfFile.ePhoff, ElfFile.ePhentsize, ElfFile.ePhnum]
    by_cases hent : (f.u16 54).toNat = phdrSize
    · by_cases hoff : f.size.setWidth 64 < f.u64 32
      · simp [hent, hoff, BitVec.not_le.mpr hoff]
      · simp [hent, hoff, BitVec.not_lt.mp hoff]
    · simp [hent]

theorem wellFormed_bounds (h : f.wellFormed = true) : 64 ≤ f.size.toNat ∧
    f.ePhoff.toNat + f.ePhnum.toNat * phdrSize ≤ f.size.toNat := by
  simp only [ElfFile.wellFormed, Bool.and_eq_true, decide_eq_true_eq] at h
  obtain ⟨⟨⟨hv, -⟩, hoff⟩, htable⟩ := h
  refine ⟨validate_size hv, ?_⟩
  rw [BitVec.le_def, BitVec.toNat_setWidth, Nat.mod_eq_of_lt (by omega)] at hoff
  omega

theorem mapM_some {α β : Type} {g : α → Option β} {g' : α → β} {l : List α}
    (h : ∀ x ∈ l, g x = some (g' x)) : l.mapM g = some (l.map g') := by
  induction l with
  | nil => rfl
  | cons x rest ih =>
    rw [mapM_cons, h x (.head _), ih fun y hy => h y (.tail _ hy)]
    rfl

theorem loads_eq (h : f.wellFormed = true) : loads f = some f.loads := by
  obtain ⟨h64, htable⟩ := wellFormed_bounds h
  have hphdrs : (range f.ePhnum.toNat).mapM (phdr f f.ePhoff.toNat) = some f.phdrs := by
    refine mapM_some fun i hi => ?_
    have hin : (i + 1) * phdrSize ≤ f.ePhnum.toNat * phdrSize :=
      Nat.mul_le_mul_right _ (mem_range.mp hi)
    rw [phdrSize] at hin htable
    simp (disch := omega) only [phdr, phdrSize, u32_eq, u64_eq, Option.bind_eq_bind,
      Option.bind_some]
    rfl
  unfold loads
  simp (disch := omega) only [u64_eq, u16_eq, Option.bind_eq_bind, Option.bind_some]
  rw [show f.u16 56 = f.ePhnum from rfl, show f.u64 32 = f.ePhoff from rfl, hphdrs]
  rfl

end Image

/-! ### Loops -/

section Loops
variable {σ α : Type}

theorem forEach_eq {body : σ → α → Option (σ × Bool)} {body' : σ → α → σ × Bool} {xs : List α}
    (h : ∀ x ∈ xs, ∀ s, body s x = some (body' s x)) (s : σ) :
    forEach body xs s = some (Lib.forEach body' xs s) := by
  induction xs generalizing s with
  | nil => rfl
  | cons x rest ih =>
    rw [forEach, Lib.forEach, h x (.head _)]
    cases hb : body' s x with
    | mk s' ok =>
      cases ok with
      | false => rfl
      | true => exact ih (fun y hy => h y (.tail _ hy)) s'

theorem pages_cons {n : Nat} {page stop : BitVec 64}
    (h : page.toNat + (n + 1) * 4096 = stop.toNat) :
    pages page stop = page :: pages (page + 0x1000#64) stop := by
  have hnext : (page + 0x1000#64).toNat = page.toNat + 4096 := by
    have := stop.isLt
    rw [BitVec.toNat_add, BitVec.toNat_ofNat]
    omega
  have hlen : (stop.toNat - page.toNat) / Memory.pageSize =
      (stop.toNat - (page + 0x1000#64).toNat) / Memory.pageSize + 1 := by
    simp only [Memory.pageSize]
    omega
  simp only [pages, hlen, range_succ_eq_map, map_cons, map_map, Nat.zero_mul, BitVec.add_zero]
  refine congrArg (page :: ·) (map_congr_left fun k _ => ?_)
  rw [Function.comp, Nat.succ_mul, BitVec.ofNat_add, Memory.pageSize, BitVec.add_assoc,
    BitVec.add_comm (BitVec.ofNat 64 (k * 4096))]

theorem forPages_eq {body : σ → BitVec 64 → Option (σ × Bool)} {body' : σ → BitVec 64 → σ × Bool}
    {stop page : BitVec 64} {n turns : Nat} (hpage : page.toNat + n * 4096 = stop.toNat)
    (hturns : n < turns) (h : ∀ p ∈ pages page stop, ∀ s, body s p = some (body' s p)) (s : σ) :
    forPages body stop turns page s = some (Lib.forEach body' (pages page stop) s) := by
  induction n generalizing page turns s with
  | zero =>
    obtain ⟨turns, rfl⟩ : ∃ t, turns = t + 1 := ⟨turns - 1, by omega⟩
    have hdone : ¬ page < stop := by rw [BitVec.lt_def]; omega
    have hnone : pages page stop = [] := by simp [pages, ← hpage]
    rw [forPages, if_neg hdone, hnone]
    rfl
  | succ n ih =>
    obtain ⟨turns, rfl⟩ : ∃ t, turns = t + 1 := ⟨turns - 1, by omega⟩
    have hmore : page < stop := by rw [BitVec.lt_def]; omega
    have hnext : (page + 0x1000#64).toNat = page.toNat + 4096 := by
      have := stop.isLt
      rw [BitVec.toNat_add, BitVec.toNat_ofNat]
      omega
    rw [pages_cons hpage] at h ⊢
    rw [forPages, if_pos hmore, Lib.forEach, h page (.head _)]
    cases hb : body' s page with
    | mk s' ok =>
      cases ok with
      | false => rfl
      | true => exact ih (by omega) (by omega) (fun p hp => h p (.tail _ hp)) s'

end Loops

/-! ### Segments -/

section Segments
variable {f : ElfFile} {ph : Phdr} {page : BitVec 64}

theorem inUserSpace_bounds (h : ph.inUserSpace = true) :
    0x1000 ≤ ph.vaddr.toNat ∧ ph.vaddr.toNat + ph.memsz.toNat ≤ 0x800000000000 := by
  simp only [Phdr.inUserSpace, Bool.and_eq_true, decide_eq_true_eq] at h
  obtain ⟨⟨hmemsz, hmin⟩, hmax⟩ := h
  have hend : userSpaceEnd.toNat = 0x800000000000 := by decide
  rw [BitVec.le_def, BitVec.toNat_sub_of_le hmemsz, hend] at hmax
  rw [BitVec.le_def, hend] at hmemsz
  rw [BitVec.le_def] at hmin
  exact ⟨hmin, by omega⟩

theorem inFile_bounds (h : ph.inFile f.size = true) :
    ph.offset.toNat + ph.filesz.toNat ≤ f.size.toNat := by
  have := f.size.isLt
  simp only [Phdr.inFile, Bool.and_eq_true, decide_eq_true_eq, BitVec.le_def, BitVec.toNat_sub,
    BitVec.toNat_setWidth] at h
  omega

theorem toNat_startPage (ph : Phdr) : ph.startPage.toNat = ph.vaddr.toNat / 4096 * 4096 := by
  rw [Phdr.startPage, pageFloor, toNat_and_not_low]

theorem toNat_endPage (h : ph.inUserSpace = true) :
    ph.endPage.toNat = (ph.vaddr.toNat + ph.memsz.toNat + 4095) / 4096 * 4096 := by
  have := inUserSpace_bounds h
  rw [Phdr.endPage, roundUp, toNat_and_not_low, BitVec.toNat_add, BitVec.toNat_add,
    BitVec.toNat_ofNat]
  omega

def Touches (ph : Phdr) (page : BitVec 64) : Prop :=
  ph.startPage.toNat ≤ page.toNat ∧ page.toNat + 4096 ≤ ph.endPage.toNat

section
variable (h : ph.inUserSpace = true)
include h

theorem touches_nth {k : Nat} (hk : k * 4096 + 4096 ≤ ph.endPage.toNat - ph.startPage.toNat) :
    Touches ph (ph.startPage + BitVec.ofNat 64 (k * Memory.pageSize)) := by
  have := inUserSpace_bounds h
  have hend := toNat_endPage h
  rw [Touches, Memory.pageSize, BitVec.toNat_add, BitVec.toNat_ofNat]
  omega

theorem touches_pages (hp : page ∈ pages ph.startPage ph.endPage) : Touches ph page := by
  obtain ⟨k, hk, rfl⟩ := mem_map.mp hp
  have hk := mem_range.mp hk
  refine touches_nth h ?_
  rw [Memory.pageSize] at hk
  omega

/-- The pages a library segment has frames for. -/
theorem touches_segPage {k : Nat} (hk : k < ph.segPages.length) :
    Touches ph (ph.startPage + BitVec.ofNat 64 (k * Memory.pageSize)) := by
  rw [Phdr.segPages, length_map, length_range, Memory.pageSize] at hk
  have hmod := Nat.mod_le ((ph.endPage - ph.startPage).toNat / 4096) (2 ^ 32)
  have := inUserSpace_bounds h
  have hstart := toNat_startPage ph
  have hend := toNat_endPage h
  have hdiff : (ph.endPage - ph.startPage).toNat = ph.endPage.toNat - ph.startPage.toNat :=
    BitVec.toNat_sub_of_le (by rw [BitVec.le_def]; omega)
  rw [hdiff] at hk hmod
  exact touches_nth h (by omega)

theorem touches_segPages (hp : page ∈ ph.segPages) : Touches ph page := by
  obtain ⟨k, hk, rfl⟩ := mem_map.mp hp
  exact touches_segPage h (by simpa [Phdr.segPages] using hk)

theorem mappable_touches (ht : Touches ph page) : Mappable page := by
  have hbounds := inUserSpace_bounds h
  have hstart := toNat_startPage ph
  have hend := toNat_endPage h
  have hmin : (pageFloor userSpaceMin).toNat = 0x1000 := by decide
  have hmax : userSpaceEnd.toNat = 0x800000000000 := by decide
  obtain ⟨hlow, hhigh⟩ := ht
  rw [Mappable, BitVec.le_def, BitVec.lt_def]
  omega

end

theorem copyIn_eq {m : Machine} {p : Ptr} {off n : Nat} {src : Nat → BitVec 8}
    (h : off + n ≤ 4096) : copyIn m p off n src = some (m.copyIn p off n src) := if_pos h

/-- What is copied to a page, as numbers. -/
theorem copy_range (hfile : ph.inFile f.size = true) (h : ph.inUserSpace = true)
    (ht : Touches ph page) : (ph.copyStart page).toNat = max page.toNat ph.vaddr.toNat ∧
      (ph.copyEnd page).toNat = min (page.toNat + 4096) (ph.vaddr.toNat + ph.filesz.toNat) ∧
      (ph.copyStart page < ph.copyEnd page → (ph.copyEnd page - ph.copyStart page).toNat =
            (ph.copyEnd page).toNat - (ph.copyStart page).toNat ∧
          (ph.copyStart page - page).toNat = (ph.copyStart page).toNat - page.toNat ∧
          (ph.offset + (ph.copyStart page - ph.vaddr)).toNat =
            ph.offset.toNat + ((ph.copyStart page).toNat - ph.vaddr.toNat)) := by
  have hbounds := inUserSpace_bounds h
  have hin := inFile_bounds hfile
  have hend := toNat_endPage h
  have hsize := f.size.isLt
  obtain ⟨-, hhigh⟩ := ht
  have hcs : (ph.copyStart page).toNat = max page.toNat ph.vaddr.toNat := by
    rw [Phdr.copyStart]
    split <;> simp_all only [BitVec.lt_def] <;> omega
  have hce : (ph.copyEnd page).toNat = min (page.toNat + 4096) (ph.vaddr.toNat + ph.filesz.toNat) := by
    rw [Phdr.copyEnd]
    split <;> simp_all only [BitVec.lt_def, BitVec.toNat_add, BitVec.toNat_ofNat] <;> omega
  refine ⟨hcs, hce, fun hlt => ?_⟩
  rw [BitVec.lt_def] at hlt
  refine ⟨?_, ?_, ?_⟩ <;> simp only [BitVec.toNat_add, BitVec.toNat_sub] <;> omega

/-- The copy reads the segment's bytes of the image and writes inside the page. -/
theorem copySegment_eq (hfile : ph.inFile f.size = true) (h : ph.inUserSpace = true)
    (ht : Touches ph page) (m : Machine) (p : Ptr) :
    copySegment m f ph page p = some (m.copySegment f ph page p) := by
  have hin := inFile_bounds hfile
  obtain ⟨hcs, hce, hrange⟩ := copy_range hfile h ht
  unfold copySegment Machine.copySegment
  dsimp only
  split
  case isFalse => rfl
  case isTrue hlt =>
    obtain ⟨hlen, hto, hfrom⟩ := hrange hlt
    rw [BitVec.lt_def] at hlt
    rw [if_pos (by omega), copyIn_eq (by omega)]

theorem mapPageDir_eq {m : Machine} {pml4 phys : Ptr} {va flags : BitVec 64} (h : Mappable va) :
    mapPageDir m pml4 phys va flags = some (m.mapPageDir pml4 phys va flags) := if_pos h

theorem mapPageRo_eq {m : Machine} {pml4 phys : Ptr} {va : BitVec 64} {exec : Bool}
    (h : Mappable va) : mapPageRo m pml4 phys va exec = some (m.mapPageRo pml4 phys va exec) :=
  if_pos h

end Segments

/-! ### `libseg_load` -/

section Library
variable {f : ElfFile} {ph : Phdr}

theorem loadMaster_eq (hfile : ph.inFile f.size = true) (h : ph.inUserSpace = true)
    {page : BitVec 64} (ht : Touches ph page) (m : Machine) :
    loadMaster f ph m page = some (m.loadMaster f ph page) := by
  unfold loadMaster Machine.loadMaster
  dsimp only
  split
  · rfl
  rw [copySegment_eq hfile h ht]
  rfl

/-- No segment has more frames than its array has room for. -/
theorem loadMasters_eq (hfile : ph.inFile f.size = true) (h : ph.inUserSpace = true)
    (pgs : List (BitVec 64)) (ht : ∀ page ∈ pgs, Touches ph page) (m : Machine) (taken : List Ptr)
    (hroom : taken.length + pgs.length ≤ maxSegPages) :
    loadMasters f ph pgs m taken = some (m.loadMasters f ph pgs taken) ∧
      ((m.loadMasters f ph pgs taken).2.1).length ≤ taken.length + pgs.length := by
  induction pgs generalizing m taken with
  | nil => exact ⟨rfl, Nat.le_refl _⟩
  | cons page rest ih =>
    rw [loadMasters, Machine.loadMasters, loadMaster_eq hfile h (ht page (.head _))]
    rw [length_cons] at hroom
    cases hm : m.loadMaster f ph page with
    | mk m' frame =>
      cases frame with
      | none => exact ⟨rfl, Nat.le_add_right ..⟩
      | some frame =>
        have hlen : (taken ++ [frame]).length = taken.length + 1 := by simp
        obtain ⟨heq, hle⟩ := ih (fun p hp => ht p (.tail _ hp)) m' (taken ++ [frame]) (by omega)
        have hone : taken.length < maxSegPages := by omega
        refine ⟨?_, ?_⟩
        · show (if taken.length < maxSegPages then _ else none) = _
          rw [if_pos hone, heq]
        · show ((m'.loadMasters f ph rest (taken ++ [frame])).2.1).length ≤ _
          rw [length_cons]
          omega

/-- Every page of a loaded segment lies in user space. -/
def Placed (segs : List Libseg) : Prop := ∀ s ∈ segs, ∀ pg ∈ s.placed, Mappable pg.1

theorem mem_placed {s : Libseg} {pg : BitVec 64 × Ptr} (h : pg ∈ s.placed) :
    ∃ k < s.frames.length, pg.1 = s.vaddr + BitVec.ofNat 64 (k * Memory.pageSize) := by
  obtain ⟨x, hx, rfl⟩ := mem_map.mp h
  exact ⟨x.2, snd_lt_of_mem_zipIdx hx, rfl⟩

theorem loadSegs_eq (f : ElfFile) (phs : List Phdr) (m : Machine) (segs : List Libseg) :
    loadSegs f phs m segs = some (m.loadSegs f phs segs) ∧
      (Placed segs → ∀ out ∈ (m.loadSegs f phs segs).2, Placed out) := by
  induction phs generalizing m segs with
  | nil => exact ⟨rfl, fun h out hout => Option.some.inj hout ▸ h⟩
  | cons ph rest ih =>
    rw [loadSegs, Machine.loadSegs]
    split
    · exact ⟨rfl, fun h out hout => Option.some.inj hout ▸ h⟩
    split
    · exact ⟨rfl, fun _ _ hout => nomatch hout⟩
    case isFalse hok =>
      simp only [not_or, not_not] at hok
      obtain ⟨-, hfile, huser⟩ := hok
      have hlen : ph.segPages.length ≤ maxSegPages := by simp [Phdr.segPages]
      obtain ⟨heq, hle⟩ := loadMasters_eq hfile huser ph.segPages
        (fun page hp => touches_segPages huser hp) m [] (by simpa using hlen)
      rw [heq]
      cases hm : m.loadMasters f ph ph.segPages [] with
      | mk m' out =>
        obtain ⟨taken, ok⟩ := out
        rw [hm, length_nil, Nat.zero_add] at hle
        cases ok with
        | false => exact ⟨rfl, fun _ _ hout => nomatch hout⟩
        | true =>
          obtain ⟨hrest, hplaced⟩ := ih m' (segs ++ [⟨ph.startPage, ph.writable, ph.exec, taken⟩])
          refine ⟨hrest, fun h => hplaced fun s hs pg hpg => ?_⟩
          rcases mem_append.mp hs with hs | hs
          · exact h s hs pg hpg
          obtain rfl := mem_singleton.mp hs
          obtain ⟨k, hk, hva⟩ := mem_placed hpg
          rw [hva]
          exact mappable_touches huser (touches_segPage huser (Nat.lt_of_lt_of_le hk hle))

theorem libsegLoad_eq (m : Machine) (f : ElfFile) :
    libsegLoad m f = some (m.libsegLoad f) ∧ ∀ segs ∈ (m.libsegLoad f).2, Placed segs := by
  unfold libsegLoad Machine.libsegLoad
  rw [wellFormed_eq]
  cases hw : f.wellFormed with
  | false => exact ⟨rfl, fun _ h => nomatch h⟩
  | true =>
    rw [loads_eq hw]
    obtain ⟨heq, hplaced⟩ := loadSegs_eq f f.loads m []
    exact ⟨heq, hplaced fun _ hs => nomatch hs⟩

end Library

/-! ### `elf_load_image` -/

section Image
variable {f : ElfFile}

theorem libsegMap_eq {segs : List Libseg} (h : Placed segs) (m : Machine) (pml4 : Ptr) :
    libsegMap m pml4 segs = some (m.libsegMap pml4 segs) := by
  have hpage (s : Libseg) (hs : s ∈ segs) (pg : BitVec 64 × Ptr) (hpg : pg ∈ s.placed)
      (m : Machine) : mapMaster pml4 s m pg = some (m.mapMaster pml4 s pg) := by
    have hva := h s hs pg hpg
    unfold mapMaster Machine.mapMaster
    dsimp only
    split
    · split
      · rfl
      · rw [mapPageDir_eq hva]
        rfl
    · rw [mapPageRo_eq hva]
      rfl
  rw [libsegMap, forEach_eq fun s hs m => forEach_eq (hpage s hs) m]
  rfl

theorem loadStack_eq (m : Machine) (pd : Ptr) : loadStack m pd = some (m.loadStack pd) := by
  have htop : Mappable userStackTop := by decide
  have hbelow : ∀ n ∈ range' 1 (userStackInitPages - 1),
      Mappable (userStackTop - BitVec.ofNat 64 (n * Memory.pageSize)) := by decide
  have hpages : ∀ n ∈ range' 1 (userStackInitPages - 1), ∀ m : Machine,
      loadStackPage pd m n = some (m.loadStackPage pd n) := by
    intro n hn m
    unfold loadStackPage Machine.loadStackPage
    dsimp only
    split
    · rfl
    rw [mapPageDir_eq (hbelow n hn)]
    rfl
  unfold loadStack Machine.loadStack
  dsimp only
  split
  · rfl
  rw [mapPageDir_eq htop]
  simp only [Option.bind_eq_bind, Option.bind_some, forEach_eq hpages]
  obtain ⟨m', ok⟩ := Lib.forEach (Machine.loadStackPage pd) (range' 1 (userStackInitPages - 1))
    (m.allocPage.1.mapPageDir pd m.allocPage.2 userStackTop (0x7#64 ||| pageNx))
  cases ok with
  | false => rfl
  | true =>
    simp only [copyIn_eq (show 4096 - 32 + 32 ≤ 4096 by decide)]
    rfl

theorem loadSegmentPage_eq {ph : Phdr} (hfile : ph.inFile f.size = true)
    (h : ph.inUserSpace = true) {page : BitVec 64} (ht : Touches ph page) (pd : Ptr)
    (m : Machine) : loadSegmentPage pd f ph m page = some (m.loadSegmentPage pd f ph page) := by
  have hbounds := inUserSpace_bounds h
  unfold loadSegmentPage Machine.loadSegmentPage
  dsimp only
  split
  · rfl
  rw [mapPageDir_eq (mappable_touches h ht)]
  simp only [Option.bind_eq_bind, Option.bind_some, copySegment_eq hfile h ht]
  split
  case isFalse => rfl
  case isTrue hzero =>
    have hend : (if ph.vaddr + ph.memsz < page + 0x1000#64 then
        (ph.vaddr + ph.memsz - page).toNat else 4096) ≤ 4096 := by
      split <;> simp_all only [BitVec.lt_def, BitVec.toNat_add, BitVec.toNat_sub,
        BitVec.toNat_ofNat] <;> omega
    generalize (if page < ph.vaddr + ph.filesz then _ else _) = zeroStart
    generalize (if ph.vaddr + ph.memsz < page + 0x1000#64 then _ else _) = zeroEnd at hend ⊢
    split
    case isFalse => rfl
    case isTrue hlt =>
      rw [copyIn_eq (by omega)]
      rfl

theorem loadSegment_eq (pd : Ptr) (f : ElfFile) (m : Machine) (ph : Phdr) :
    loadSegment pd f m ph = some (m.loadSegment pd f ph) := by
  unfold loadSegment Machine.loadSegment
  split
  case isFalse => rfl
  case isTrue hok =>
    simp only [Bool.and_eq_true, decide_eq_true_eq] at hok
    obtain ⟨⟨hfile, huser⟩, hmax⟩ := hok
    have hbounds := inUserSpace_bounds huser
    have hstart := toNat_startPage ph
    have hend := toNat_endPage huser
    rw [BitVec.le_def, elfMaxSegment, BitVec.toNat_ofNat] at hmax
    refine forPages_eq (n := (ph.endPage.toNat - ph.startPage.toNat) / 4096) (by omega) ?_
      (fun page hp m => loadSegmentPage_eq hfile huser (touches_pages huser hp) pd m) m
    rw [segmentTurns]
    omega

theorem loadImage_eq (hw : f.wellFormed = true) (m : Machine) (pd : Ptr) :
    loadImage m pd f = some (m.loadImage pd f) := by
  obtain ⟨h64, -⟩ := wellFormed_bounds hw
  unfold loadImage Machine.loadImage
  rw [loadStack_eq]
  cases hs : m.loadStack pd with
  | mk m' ok =>
    cases ok with
    | false => rfl
    | true =>
      simp only [Option.bind_eq_bind, Option.bind_some]
      rw [u64_eq (by omega), loads_eq hw]
      simp only [Option.bind_some, forEach_eq fun ph _ m => loadSegment_eq pd f m ph]
      rw [show f.u64 24 = f.eEntry from rfl]
      split <;> rfl

theorem elfLoadImage_eq {libc : Option (List Libseg)} (h : ∀ segs ∈ libc, Placed segs)
    (m : Machine) (f : ElfFile) : elfLoadImage m libc f = some (m.elfLoadImage libc f) := by
  have hplaced : Placed (libc.getD []) := by
    cases libc with
    | none => exact fun _ hs => nomatch hs
    | some segs => exact h segs rfl
  unfold elfLoadImage Machine.elfLoadImage
  rw [wellFormed_eq]
  cases hw : f.wellFormed with
  | false => rfl
  | true =>
    obtain ⟨h64, -⟩ := wellFormed_bounds hw
    dsimp only [Option.bind_eq_bind, Option.bind_some]
    rw [if_neg (show ¬ (!true) = true by decide), if_neg (show ¬ (!true) = true by decide)]
    split
    · rfl
    rw [loadImage_eq hw, Option.bind_some]
    obtain ⟨m', ok⟩ := m.allocPageDirectory.1.loadImage m.allocPageDirectory.2 f
    cases ok with
    | false => rfl
    | true =>
      simp only [libsegMap_eq hplaced, u64_eq (f := f) (o := 24) (by omega)]
      rfl

end Image

end Checked

/-- The loaders are safe on every file: with a check before each access to the image, to a frame, to
the page tables and to the frame array of a segment, and with a bound on the turns of the loop over
pages, they do just what they do without. The shared libc, if there is one, was loaded from a file
too. -/
theorem loaders_never_stray (m : Machine) (f : ElfFile) :
    Checked.libsegLoad m f = some (m.libsegLoad f) ∧
      Checked.elfLoadImage m none f = some (m.elfLoadImage none f) ∧
      ∀ (boot : Machine) (libc : ElfFile), Checked.elfLoadImage m (boot.libsegLoad libc).2 f =
        some (m.elfLoadImage (boot.libsegLoad libc).2 f) := by
  refine ⟨(Checked.libsegLoad_eq m f).1, Checked.elfLoadImage_eq ?_ m f,
    fun boot libc => Checked.elfLoadImage_eq (Checked.libsegLoad_eq boot libc).2 m f⟩
  intro _ hnone
  cases hnone

end Nyx.Paging
