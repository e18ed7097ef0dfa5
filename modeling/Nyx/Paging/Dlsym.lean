import Nyx.Paging.Hostile

/-! Symbols of a library (`do_dlsym` in `shared_libc.c`), with every read of the image checked.

An offset is added to the address of the image as a 64-bit number, so an offset that has wrapped is
one outside the image. A read outside it is `none`. -/
namespace Nyx.Paging
open Option

/-- What `do_dlsym` looks at of an `elf64_shdr_t`. -/
structure Shdr where
  type : BitVec 32
  offset : BitVec 64
  size : BitVec 64
  link : BitVec 32
  entsize : BitVec 64
deriving DecidableEq, Repr

def shtSymtab : BitVec 32 := 2#32
def shdrSize : Nat := 64
def symSize : Nat := 24

namespace ElfFile

variable (f : ElfFile)

def eShoff : BitVec 64 := f.u64 40
def eShnum : BitVec 16 := f.u16 60

def shdr (i : Nat) : Option Shdr := do
  let o := (f.eShoff + BitVec.ofNat 64 (i * shdrSize)).toNat
  return ⟨← Checked.u32 f (o + 4), ← Checked.u64 f (o + 24), ← Checked.u64 f (o + 32),
    ← Checked.u32 f (o + 40), ← Checked.u64 f (o + 56)⟩

end ElfFile

namespace Shdr

def inImage (sh : Shdr) (size : BitVec 32) : Bool :=
  sh.offset ≤ size.setWidth 64 && sh.size ≤ size.setWidth 64 - sh.offset

/-- `(int)(sh_size / sh_entsize)`; a loop up to a negative number does nothing. -/
def nsyms (sh : Shdr) : Nat := ((sh.size / sh.entsize).setWidth 32).toInt.toNat

end Shdr

namespace ElfFile

/-- `strcmp` of the text at an offset with a name. -/
def named (f : ElfFile) (o : Nat) : List (BitVec 8) → Option Bool
  | [] => do return (← Checked.byte f o) == 0#8
  | c :: rest => do
    let b ← Checked.byte f o
    if b ≠ c then return false
    if b = 0#8 then return true
    f.named (o + 1) rest

def symbol (f : ElfFile) (sh str : Shdr) (name : List (BitVec 8)) :
    List Nat → Option (Option (BitVec 64))
  | [] => some none
  | s :: rest => do
    let o := sh.offset.toNat + s * symSize
    let value ← Checked.u64 f (o + 8)
    if value = 0#64 then f.symbol sh str name rest
    else
      let stName ← Checked.u32 f o
      if str.size ≤ stName.setWidth 64 then f.symbol sh str name rest
      else if ← f.named (str.offset.toNat + stName.toNat) name then return some value
      else f.symbol sh str name rest

/-- The symbols and the strings of a section, if it is a symbol table whose own bounds and string
table hold. -/
def searched (f : ElfFile) (i : Nat) : Option (Option (Shdr × Shdr)) := do
  let sh ← f.shdr i
  if sh.type ≠ shtSymtab ∨ sh.entsize = 0#64 then return none
  if f.eShnum.toNat ≤ sh.link.toNat then return none
  let str ← f.shdr sh.link.toNat
  if !str.inImage f.size then return none
  if !sh.inImage f.size then return none
  if str.size = 0#64 then return none
  if (← Checked.byte f (str.offset.toNat + (str.size.toNat - 1))) ≠ 0#8 then return none
  return some (sh, str)

def sectionSymbol (f : ElfFile) (name : List (BitVec 8)) (i : Nat) :
    Option (Option (BitVec 64)) := do
  match ← f.searched i with
  | none => return none
  | some (sh, str) => f.symbol sh str name (List.range sh.nsyms)

def sections (f : ElfFile) (name : List (BitVec 8)) : List Nat → Option (BitVec 64)
  | [] => some 0#64
  | i :: rest => do
    match ← f.sectionSymbol name i with
    | some value => return value
    | none => f.sections name rest

def dlsym (f : ElfFile) (name : List (BitVec 8)) : Option (BitVec 64) := do
  let shoff ← Checked.u64 f 40
  let shnum ← Checked.u16 f 60
  if f.size.setWidth 64 < shoff + BitVec.ofNat 64 (shnum.toNat * shdrSize) then return 0#64
  f.sections name (List.range shnum.toNat)

end ElfFile

/-- `do_dlsym`, with the images the registry keeps. -/
def doDlsym (images : List ElfFile) (handle : Int) (name : List (BitVec 8)) : Option (BitVec 64) :=
  if handle < 1 ∨ (maxDynlibs : Int) < handle then some 0#64
  else
    match images[(handle - 1).toNat]? with
    | none => some 0#64
    | some f => f.dlsym name

/-! ### Inside the image -/

section
variable {f : ElfFile} (name : List (BitVec 8))

/-- A text in a table that ends with a NUL is read inside the table. -/
theorem named_inside {o stop : Nat} (hstop : stop < f.size.toNat) (hnul : f.data stop = 0#8)
    (ho : o ≤ stop) : ∃ b, f.named o name = some b := by
  induction name generalizing o with
  | nil =>
    rw [ElfFile.named, Checked.byte_eq (by omega)]
    exact ⟨_, rfl⟩
  | cons c rest ih =>
    rw [ElfFile.named, Checked.byte_eq (by omega)]
    simp only [bind_eq_bind, bind_some]
    split
    · exact ⟨_, rfl⟩
    split
    · exact ⟨_, rfl⟩
    case isFalse hmore =>
      have hne : o ≠ stop := fun h => hmore (h ▸ hnul)
      exact ih (by omega)

theorem symbol_inside {sh str : Shdr} {stop : Nat} (hstop : stop < f.size.toNat)
    (hnul : f.data stop = 0#8) (hstr : str.offset.toNat + str.size.toNat = stop + 1)
    (ss : List Nat) (hss : ∀ s ∈ ss, sh.offset.toNat + s * symSize + 16 ≤ f.size.toNat) :
    ∃ v, f.symbol sh str name ss = some v := by
  induction ss with
  | nil => exact ⟨_, rfl⟩
  | cons s rest ih =>
    obtain ⟨v, hv⟩ := ih fun s hs => hss s (.tail _ hs)
    have hs := hss s (.head _)
    rw [symSize] at hs
    rw [ElfFile.symbol, hv]
    simp (disch := omega) only [symSize, Checked.u64_eq, Checked.u32_eq, bind_eq_bind, bind_some]
    split
    · exact ⟨_, rfl⟩
    split
    · exact ⟨_, rfl⟩
    case isFalse hname =>
      rw [BitVec.le_def, BitVec.toNat_setWidth] at hname
      obtain ⟨b, hb⟩ := named_inside name (o := str.offset.toNat +
        (f.u32 (sh.offset.toNat + s * 24)).toNat) hstop hnul (by omega)
      rw [hb]
      cases b <;> exact ⟨_, rfl⟩

/-- What the lookup takes on trust: the section table is refused, or does not wrap and every symbol
that is counted lies in the image, up to the end of its `st_value`. -/
def Trusted (f : ElfFile) : Prop :=
  f.size.setWidth 64 < f.eShoff + BitVec.ofNat 64 (f.eShnum.toNat * shdrSize) ∨
    f.eShoff.toNat + f.eShnum.toNat * shdrSize < 2 ^ 64 ∧
      ∀ i < f.eShnum.toNat, ∀ sh str, f.searched i = some (some (sh, str)) →
        ∀ s < sh.nsyms, sh.offset.toNat + s * symSize + 16 ≤ f.size.toNat

theorem inImage_bounds {sh : Shdr} (h : sh.inImage f.size = true) :
    sh.offset.toNat + sh.size.toNat ≤ f.size.toNat := by
  have := f.size.isLt
  simp only [Shdr.inImage, Bool.and_eq_true, decide_eq_true_eq, BitVec.le_def, BitVec.toNat_sub,
    BitVec.toNat_setWidth] at h
  omega

section
variable (htable : f.eShoff.toNat + f.eShnum.toNat * shdrSize ≤ f.size.toNat)
include htable

/-- The headers of the sections lie in the image. -/
theorem shdr_inside {i : Nat} (hi : i < f.eShnum.toNat) : ∃ sh, f.shdr i = some sh := by
  have hrow : i * shdrSize + shdrSize ≤ f.eShnum.toNat * shdrSize := by
    rw [← Nat.succ_mul]
    exact Nat.mul_le_mul_right _ hi
  have hat : (f.eShoff + BitVec.ofNat 64 (i * shdrSize)).toNat = f.eShoff.toNat + i * shdrSize := by
    have := f.size.isLt
    rw [BitVec.toNat_add, BitVec.toNat_ofNat]
    omega
  rw [shdrSize] at hat hrow htable
  rw [ElfFile.shdr, shdrSize, hat]
  simp (disch := omega) only [Checked.u32_eq, Checked.u64_eq, bind_eq_bind, bind_some]
  exact ⟨_, rfl⟩

/-- The checks of a section are made inside the image. One that passes them has its strings in the
image, and a NUL behind the last. -/
theorem searched_inside {i : Nat} (hi : i < f.eShnum.toNat) : ∃ r, f.searched i = some r ∧
    ∀ sh str, r = some (sh, str) → ∃ stop < f.size.toNat, f.data stop = 0#8 ∧
      str.offset.toNat + str.size.toNat = stop + 1 := by
  obtain ⟨sh, hsh⟩ := shdr_inside htable hi
  rw [ElfFile.searched, hsh]
  simp only [bind_eq_bind, bind_some]
  split
  · exact ⟨_, rfl, nofun⟩
  split
  · exact ⟨_, rfl, nofun⟩
  case isFalse hlink =>
  obtain ⟨str, hstr⟩ := shdr_inside htable (Nat.not_le.mp hlink)
  rw [hstr]
  simp only [bind_some]
  split
  · exact ⟨_, rfl, nofun⟩
  case isFalse hstrin =>
  split
  · exact ⟨_, rfl, nofun⟩
  split
  · exact ⟨_, rfl, nofun⟩
  case isFalse hempty =>
  have hstrin := inImage_bounds (by simpa using hstrin)
  have hpos : 0 < str.size.toNat := Nat.pos_of_ne_zero fun h => hempty (BitVec.eq_of_toNat_eq h)
  rw [Checked.byte_eq (by omega), bind_some]
  split
  · exact ⟨_, rfl, nofun⟩
  case isFalse hnul =>
  refine ⟨_, rfl, fun sh' str' heq => ?_⟩
  cases heq
  exact ⟨_, by omega, not_not.mp hnul, by omega⟩

theorem sections_inside (hsyms : ∀ i < f.eShnum.toNat, ∀ sh str,
      f.searched i = some (some (sh, str)) →
        ∀ s < sh.nsyms, sh.offset.toNat + s * symSize + 16 ≤ f.size.toNat)
    (is : List Nat) (his : ∀ i ∈ is, i < f.eShnum.toNat) : ∃ v, f.sections name is = some v := by
  induction is with
  | nil => exact ⟨_, rfl⟩
  | cons i rest ih =>
    have hi := his i (.head _)
    have hrest := ih fun i hi => his i (.tail _ hi)
    obtain ⟨r, hr, hstrings⟩ := searched_inside htable hi
    rw [ElfFile.sections, ElfFile.sectionSymbol, hr]
    rcases r with _ | ⟨sh, str⟩
    · exact hrest
    obtain ⟨stop, hstop, hnul, hstr⟩ := hstrings sh str rfl
    obtain ⟨v, hv⟩ := symbol_inside name hstop hnul hstr (List.range sh.nsyms) fun s hs =>
      hsyms i hi sh str hr s (List.mem_range.mp hs)
    simp only [bind_eq_bind, bind_some, hv]
    cases v with
    | none => exact hrest
    | some v => exact ⟨v, rfl⟩

end

/-! ### A name that no symbol has -/

theorem named_long {o n : Nat} (hn : f.size.toNat ≤ o + n) :
    f.named o (List.replicate n 1#8) ≠ some true := by
  induction n generalizing o with
  | zero =>
    rw [List.replicate_zero, ElfFile.named, Checked.byte, if_neg (by omega)]
    nofun
  | succ n ih =>
    rw [List.replicate_succ, ElfFile.named]
    cases Checked.byte f o with
    | none => nofun
    | some b =>
      simp only [bind_eq_bind, bind_some]
      split
      · nofun
      case isFalse hb =>
        rw [if_neg (by rw [not_not.mp hb]; decide)]
        exact ih (by omega)

theorem u64_bound {o : Nat} {w : BitVec 64} (h : Checked.u64 f o = some w) :
    o + 8 ≤ f.size.toNat := by
  by_contra hlt
  have hnone : Checked.byte f (o + 4 + 2 + 1) = none := if_neg (by omega)
  rw [Checked.u64, Checked.u32, Checked.u16, hnone] at h
  cases h

/-- Looking for it goes through all symbols of a table. -/
theorem symbol_long {sh str : Shdr} {ss : List Nat} {v : Option (BitVec 64)}
    (h : f.symbol sh str (List.replicate f.size.toNat 1#8) ss = some v) :
    v = none ∧ ∀ s ∈ ss, sh.offset.toNat + s * symSize + 16 ≤ f.size.toNat := by
  induction ss with
  | nil => exact ⟨(some.inj h).symm, nofun⟩
  | cons s rest ih =>
    rw [ElfFile.symbol] at h
    obtain ⟨value, hvalue, h⟩ := bind_eq_some_iff.mp h
    have hrest : f.symbol sh str (List.replicate f.size.toNat 1#8) rest = some v := by
      split at h
      · exact h
      obtain ⟨stName, -, h⟩ := bind_eq_some_iff.mp h
      split at h
      · exact h
      obtain ⟨b, hb, h⟩ := bind_eq_some_iff.mp h
      cases b with
      | true => exact absurd hb (named_long (by omega))
      | false => exact h
    have hbound := u64_bound hvalue
    exact ⟨(ih hrest).1, List.forall_mem_cons.mpr ⟨by omega, (ih hrest).2⟩⟩

theorem sections_long {is : List Nat} {v : BitVec 64}
    (h : f.sections (List.replicate f.size.toNat 1#8) is = some v) :
    ∀ i ∈ is, ∃ r, f.searched i = some r ∧ ∀ sh str, r = some (sh, str) →
      ∀ s < sh.nsyms, sh.offset.toNat + s * symSize + 16 ≤ f.size.toNat := by
  induction is with
  | nil => nofun
  | cons i rest ih =>
    rw [ElfFile.sections] at h
    obtain ⟨w, hw, h⟩ := bind_eq_some_iff.mp h
    obtain ⟨r, hr, hw⟩ := bind_eq_some_iff.mp hw
    have hfirst : w = none ∧ ∀ sh str, r = some (sh, str) →
        ∀ s < sh.nsyms, sh.offset.toNat + s * symSize + 16 ≤ f.size.toNat := by
      rcases r with _ | ⟨sh, str⟩
      · exact ⟨(some.inj hw).symm, nofun⟩
      obtain ⟨hnone, hall⟩ := symbol_long hw
      refine ⟨hnone, fun sh' str' heq s hs => ?_⟩
      cases heq
      exact hall s (List.mem_range.mpr hs)
    obtain ⟨rfl, hsyms⟩ := hfirst
    exact List.forall_mem_cons.mpr ⟨⟨r, hr, hsyms⟩, ih h⟩

theorem wellFormed_of_libsegLoad {m : Machine} {segs : List Libseg}
    (h : (m.libsegLoad f).2 = some segs) : f.wellFormed = true := by
  unfold Machine.libsegLoad at h
  split at h
  case isTrue hw => exact hw
  case isFalse => cases h

end

theorem dlsym_inside {f : ElfFile} (hw : f.wellFormed = true) :
    (∀ name, ∃ v, f.dlsym name = some v) ↔ Trusted f := by
  have h64 := (Checked.wellFormed_bounds hw).1
  have hsize := f.size.isLt
  have hnum := f.eShnum.isLt
  have hdlsym (name : List (BitVec 8)) : f.dlsym name =
      if f.size.setWidth 64 < f.eShoff + BitVec.ofNat 64 (f.eShnum.toNat * shdrSize) then some 0#64
      else f.sections name (List.range f.eShnum.toNat) := by
    rw [ElfFile.dlsym, Checked.u64_eq (by omega), Checked.u16_eq (by omega)]
    rfl
  have hsum : (f.eShoff + BitVec.ofNat 64 (f.eShnum.toNat * shdrSize)).toNat =
      (f.eShoff.toNat + f.eShnum.toNat * shdrSize) % 2 ^ 64 := by
    rw [BitVec.toNat_add, BitVec.toNat_ofNat, shdrSize]
    omega
  simp only [hdlsym, Trusted]
  by_cases hout : f.size.setWidth 64 < f.eShoff + BitVec.ofNat 64 (f.eShnum.toNat * shdrSize)
  · simp [hout]
  simp only [hout, if_false, false_or]
  constructor
  · intro h
    obtain ⟨v, hv⟩ := h (List.replicate f.size.toNat 1#8)
    have hall := sections_long hv
    refine ⟨?_, fun i hi sh str hsearched => ?_⟩
    · -- A table that wraps begins behind the image, where the first header is read.
      by_contra hwraps
      obtain ⟨r, hr, -⟩ := hall 0 (List.mem_range.mpr (by rw [shdrSize] at hwraps; omega))
      obtain ⟨sh, hsh, -⟩ := bind_eq_some_iff.mp hr
      obtain ⟨type, -, hsh⟩ := bind_eq_some_iff.mp hsh
      obtain ⟨offset, hoffset, -⟩ := bind_eq_some_iff.mp hsh
      have hfirst := u64_bound hoffset
      rw [Nat.zero_mul, BitVec.add_zero] at hfirst
      rw [shdrSize] at hwraps
      omega
    · obtain ⟨r, hr, hsyms⟩ := hall i (List.mem_range.mpr hi)
      exact hsyms sh str (some.inj (hr.symm.trans hsearched))
  · rintro ⟨hwraps, hsyms⟩ name
    refine sections_inside name ?_ hsyms _ fun i hi => List.mem_range.mp hi
    rw [BitVec.lt_def, hsum, BitVec.toNat_setWidth] at hout
    omega

/-- For every handle and name, the lookup ends and stays inside the images of the registry, exactly
if what it takes on trust holds of each. -/
theorem doDlsym_inside {images : List ElfFile} (hmany : images.length ≤ maxDynlibs)
    (hloaded : ∀ f ∈ images, ∃ (m : Machine) (segs : List Libseg), (m.libsegLoad f).2 = some segs) :
    (∀ (handle : Int) (name : List (BitVec 8)), ∃ v, doDlsym images handle name = some v) ↔
      ∀ f ∈ images, Trusted f := by
  have hinside (f : ElfFile) (hf : f ∈ images) :
      (∀ name, ∃ v, f.dlsym name = some v) ↔ Trusted f := by
    obtain ⟨m, segs, hload⟩ := hloaded f hf
    exact dlsym_inside (wellFormed_of_libsegLoad hload)
  constructor
  · intro h f hf
    obtain ⟨n, hn, rfl⟩ := List.mem_iff_getElem.mp hf
    refine (hinside _ hf).mp fun name => ?_
    have hname := h (n + 1) name
    rw [doDlsym, if_neg (by omega), show (n + 1 - 1 : Int).toNat = n by omega,
      List.getElem?_eq_getElem hn] at hname
    exact hname
  · intro htrusted handle name
    rw [doDlsym]
    split
    · exact ⟨_, rfl⟩
    split
    · exact ⟨_, rfl⟩
    case h_2 f hf =>
      have hf := List.mem_of_getElem? hf
      exact (hinside f hf).mpr (htrusted f hf) name

/-- A library image of a program header and two sections: a symbol table of `entsize`-byte entries
over the first 240 bytes, and its string table. -/
def libImage (entsize : BitVec 8) : ElfFile where
  size := 248#32
  data i := ([(0, 0x7F#8), (1, 0x45#8), (2, 0x4C#8), (3, 0x46#8), (4, 2#8), (5, 1#8), (16, 2#8),
    (18, 62#8), (32, 64#8), (40, 120#8), (54, 56#8), (56, 1#8), (60, 2#8), (124, 2#8), (152, 240#8),
    (160, 1#8), (176, entsize), (208, 6#8), (216, 1#8)].lookup i).getD 0#8

/-- A machine without memory; the image has no segment to load. -/
def bare : Machine := ⟨.zero, fun _ _ => 0#64, 0#64, fun _ => false, 0, .none⟩

theorem doDlsym_inside_image : ∃ v, doDlsym [libImage 24#8] 1 [0x78#8] = some v := by
  have hloaded : (bare.libsegLoad (libImage 24#8)).2 = some [] := by decide +kernel
  have htable : (libImage 24#8).eShoff.toNat + (libImage 24#8).eShnum.toNat * shdrSize < 2 ^ 64 := by
    decide +kernel
  have hsyms : ∀ i < (libImage 24#8).eShnum.toNat, ∀ r ∈ (libImage 24#8).searched i, ∀ p ∈ r,
      ∀ s < p.1.nsyms, p.1.offset.toNat + s * symSize + 16 ≤ (libImage 24#8).size.toNat := by
    decide +kernel
  refine (doDlsym_inside (by decide) fun f hf => ?_).mpr (fun f hf => ?_) 1 [0x78#8]
  · obtain rfl := List.mem_singleton.mp hf
    exact ⟨bare, [], hloaded⟩
  · obtain rfl := List.mem_singleton.mp hf
    exact .inr ⟨htable, fun i hi sh str h => hsyms i hi _ h (sh, str) rfl⟩

/-- Symbols that are counted as one byte each: the eleventh is read behind the image. -/
theorem doDlsym_reads_past : (bare.libsegLoad (libImage 1#8)).2 = some [] ∧
    doDlsym [libImage 1#8] 1 [0x78#8] = none := by
  decide +kernel

end Nyx.Paging
