import Mathlib.Data.Nat.Digits.Lemmas
import Nyx.Lib.Wrapping

/-! The archive of `mkinitramfs.py` and its reader (`initramfs.c`). -/
namespace Nyx.Initramfs
open List

abbrev Byte := BitVec 8

/-! ### Writing -/

def hexDigit (d : Nat) : Byte := BitVec.ofNat 8 (if d < 10 then 48 + d else 87 + d)

/-- `format(val, '08x')`. -/
def formatHex (val : Nat) : List Byte := leftpad 8 48#8 ((Nat.digits 16 val).reverse.map hexDigit)

def cpioMagic : List Byte := [48, 55, 48, 55, 48, 49]

def header (filesize namesize : Nat) : List Byte :=
  cpioMagic ++ [0, 0o100755, 0, 0, 1, 0].flatMap formatHex ++ formatHex filesize ++
    [0, 0, 0, 0].flatMap formatHex ++ formatHex namesize ++ formatHex 0

/-- `while len(entry) % 4: entry += b'\0'`. -/
def pad4 (entry : List Byte) : List Byte := entry ++ replicate ((4 - entry.length % 4) % 4) 0

/-- `cpio_add_file`, for an ASCII name. -/
def cpioAddFile (name data : List Byte) : List Byte :=
  pad4 (pad4 (header data.length (name.length + 1) ++ name ++ [0]) ++ data)

/-- `TRAILER!!!`. -/
def trailer : List Byte := [84, 82, 65, 73, 76, 69, 82, 33, 33, 33]

structure File where
  name : List Byte
  data : List Byte
  named : 0 ∉ name

def archive (files : List File) : List Byte :=
  files.flatMap (fun f => cpioAddFile f.name f.data) ++ cpioAddFile trailer []

/-! ### Reading -/

def hexValue (c : Byte) : BitVec 32 :=
  if 48 ≤ c ∧ c ≤ 57 then (c - 48).setWidth 32
  else if 97 ≤ c ∧ c ≤ 102 then (c - 97 + 10).setWidth 32
  else if 65 ≤ c ∧ c ≤ 70 then (c - 65 + 10).setWidth 32
  else 0

def parseHex (s : List Byte) : BitVec 32 := s.foldl (fun val c => val <<< 4 ||| hexValue c) 0

def align4 (x : BitVec 32) : BitVec 32 := (x + 3#32) &&& ~~~3#32

/-- The arguments of `vfs_create_from_mem`, with the data as an offset in the archive. -/
structure Create where
  path : List Byte
  data : Nat
  size : Nat

/-- The loop of `initramfs_boot`, and the calls it makes. -/
def bootFrom (ramfs : List Byte) : Nat → BitVec 32 → Option (List Create)
  | 0, _ => none
  | turns + 1, offset =>
    let hdr := ramfs.drop offset.toNat
    if ramfs.length < offset.toNat + 110 ∨ hdr.take 6 ≠ cpioMagic then some []
    else
      let namesize := parseHex ((hdr.drop 94).take 8)
      let filesize := parseHex ((hdr.drop 54).take 8)
      let name := (hdr.drop 110).takeWhile (· != 0)
      let dataOffset := offset + align4 (110#32 + namesize)
      if name = trailer then some []
      else (bootFrom ramfs turns (dataOffset + align4 filesize)).map
        ((if filesize = 0#32 then []
          else [⟨(47 :: name).take 255, dataOffset.toNat, filesize.toNat⟩]) ++ ·)

def initramfsBoot (ramfs : List Byte) : Option (List Create) := bootFrom ramfs (ramfs.length + 1) 0

/-! ### What is written is read -/

theorem hexValue_hexDigit {d : Nat} (h : d < 16) : hexValue (hexDigit d) = BitVec.ofNat 32 d := by
  revert d
  decide

theorem shift_or {n d : Nat} (h : d < 16) :
    BitVec.ofNat 32 n <<< 4 ||| BitVec.ofNat 32 d = BitVec.ofNat 32 (d + 16 * n) := by
  apply BitVec.eq_of_toNat_eq
  have hor := Nat.two_pow_add_eq_or_of_lt (i := 4) h (n % 2 ^ 28)
  rw [BitVec.toNat_or, BitVec.toNat_shiftLeft, BitVec.toNat_ofNat, BitVec.toNat_ofNat,
    BitVec.toNat_ofNat, Nat.shiftLeft_eq, Nat.mod_eq_of_lt (show d < 2 ^ 32 by omega),
    show n % 2 ^ 32 * 2 ^ 4 % 2 ^ 32 = 2 ^ 4 * (n % 2 ^ 28) by omega, ← hor]
  omega

theorem parseHex_digits {l : List Nat} (h : ∀ d ∈ l, d < 16) (n : Nat) :
    parseHex (replicate n 48#8 ++ l.reverse.map hexDigit) = BitVec.ofNat 32 (Nat.ofDigits 16 l) := by
  rw [parseHex]
  induction l with
  | nil =>
    induction n with
    | zero => rfl
    | succ n ih => exact ih
  | cons d l ih =>
    rw [reverse_cons, map_append, ← append_assoc, foldl_append, ih fun d hd => h d (.tail _ hd)]
    have hd := h d (.head _)
    rw [map_singleton, foldl_cons, hexValue_hexDigit hd, shift_or hd]
    rfl

theorem parseHex_formatHex {val : Nat} (h : val < 2 ^ 32) :
    (formatHex val).length = 8 ∧ parseHex (formatHex val) = BitVec.ofNat 32 val := by
  have hlen : (Nat.digits 16 val).length ≤ 8 := (Nat.digits_length_le_iff (by decide) val).mpr h
  rw [formatHex, leftpad]
  refine ⟨?_, ?_⟩
  · rw [length_append, length_replicate, length_map, length_reverse]
    omega
  · rw [parseHex_digits fun d => Nat.digits_lt_base (by decide), Nat.ofDigits_digits]

theorem length_pad4 (l : List Byte) : (pad4 l).length = (l.length + 3) / 4 * 4 := by
  rw [pad4, length_append, length_replicate]
  omega

theorem align4_ofNat {n : Nat} (h : n + 3 < 2 ^ 32) :
    align4 (BitVec.ofNat 32 n) = BitVec.ofNat 32 ((n + 3) / 4 * 4) := by
  rw [align4, ← BitVec.ofNat_add]
  apply BitVec.eq_of_toNat_eq
  refine (Lib.toNat_and_not_mask _ 2).trans ?_
  rw [BitVec.toNat_ofNat, BitVec.toNat_ofNat]
  omega

/-! ### One entry -/

section
variable {name data : List Byte} (hdata : data.length < 2 ^ 32) (hname : name.length < 64)
include hdata hname

theorem length_header : (header data.length (name.length + 1)).length = 110 := by
  rw [header]
  simp only [length_append, (parseHex_formatHex hdata).1,
    (parseHex_formatHex (show name.length + 1 < 2 ^ 32 by omega)).1]
  decide

theorem read_entry (rest : List Byte) :
    let hdr := header data.length (name.length + 1) ++ rest
    hdr.take 6 = cpioMagic ∧ parseHex ((hdr.drop 54).take 8) = BitVec.ofNat 32 data.length ∧
      parseHex ((hdr.drop 94).take 8) = BitVec.ofNat 32 (name.length + 1) ∧ hdr.drop 110 = rest := by
  have hn : name.length + 1 < 2 ^ 32 := by omega
  obtain ⟨hlen, hsize⟩ := parseHex_formatHex hdata
  obtain ⟨hlen', hsize'⟩ := parseHex_formatHex hn
  have htake {l r : List Byte} (h : l.length = 8) : (l ++ r).take 8 = l := take_left' h
  refine ⟨rfl, ?_, ?_, drop_left' (length_header hdata hname)⟩
  · rw [header, append_assoc, append_assoc, append_assoc, append_assoc, drop_left' (by decide),
      htake hlen, hsize]
  · rw [header, append_assoc, append_assoc, drop_left', htake hlen', hsize']
    simp only [length_append, hlen]
    decide

theorem length_cpioAddFile : (cpioAddFile name data).length =
    (name.length + 114) / 4 * 4 + (data.length + 3) / 4 * 4 := by
  rw [cpioAddFile, length_pad4, length_append, length_pad4, length_append, length_append,
    length_header hdata hname, length_singleton]
  omega

theorem data_cpioAddFile (rest : List Byte) :
    ((cpioAddFile name data ++ rest).drop ((name.length + 114) / 4 * 4)).take data.length = data := by
  rw [cpioAddFile, pad4, append_assoc, append_assoc, drop_left', take_left]
  rw [length_pad4, length_append, length_append, length_header hdata hname, length_singleton]
  congr 2
  omega

end

/-! ### The whole archive -/

def Create.shown (ramfs : List Byte) (c : Create) : List Byte × List Byte × Nat :=
  (c.path, (ramfs.drop c.data).take c.size, c.size)

theorem bootFrom_entry {ramfs done rest name data : List Byte} (hsize : ramfs.length < 2 ^ 32)
    (hramfs : ramfs = done ++ (cpioAddFile name data ++ rest)) (hzero : 0 ∉ name)
    (hname : name.length < 64) (turns : Nat) :
    ∃ new, new.map (Create.shown ramfs) =
        (if data = [] then [] else [(47 :: name, data, data.length)]) ∧
      bootFrom ramfs (turns + 1) (BitVec.ofNat 32 done.length) = if name = trailer then some [] else
        (bootFrom ramfs turns (BitVec.ofNat 32 (done ++ cpioAddFile name data).length)).map
          (new ++ ·) := by
  have htotal : ramfs.length = done.length + ((cpioAddFile name data).length + rest.length) := by
    rw [hramfs, length_append, length_append]
  have hdata : data.length ≤ (cpioAddFile name data).length := by
    simp only [cpioAddFile, pad4, length_append]
    omega
  have hlen := length_cpioAddFile (show data.length < 2 ^ 32 by omega) hname
  obtain ⟨more, hmore⟩ : ∃ more, cpioAddFile name data ++ rest =
      header data.length (name.length + 1) ++ (name ++ 0 :: more) :=
    ⟨_, by simp only [cpioAddFile, pad4, append_assoc, cons_append, nil_append]; rfl⟩
  obtain ⟨hmagic, hfile, hnamesize, hrest⟩ :=
    read_entry (show data.length < 2 ^ 32 by omega) hname (name ++ 0 :: more)
  have hoff : (BitVec.ofNat 32 done.length).toNat = done.length := by
    rw [BitVec.toNat_ofNat, Nat.mod_eq_of_lt (by omega)]
  have hhdr : ramfs.drop done.length = header data.length (name.length + 1) ++ (name ++ 0 :: more) := by
    rw [hramfs, drop_left, hmore]
  have htext : (name ++ 0 :: more).takeWhile (· != 0) = name := by
    rw [takeWhile_append_of_pos, takeWhile_cons_of_neg (by simp), append_nil]
    exact fun c hc => bne_iff_ne.mpr fun he => hzero (he ▸ hc)
  have hshown : Create.shown ramfs ⟨47 :: name, done.length + (name.length + 114) / 4 * 4,
      data.length⟩ = (47 :: name, data, data.length) := by
    rw [Create.shown, hramfs, drop_length_add_append, data_cpioAddFile (by omega) hname]
  refine ⟨if data = [] then [] else [⟨47 :: name, done.length + (name.length + 114) / 4 * 4,
    data.length⟩], ?_, ?_⟩
  · split
    · rfl
    · rw [map_singleton, hshown]
  rw [bootFrom]
  simp only [hoff, hhdr, hmagic, hfile, hnamesize, hrest, htext, ne_eq, not_true_eq_false, or_false]
  rw [if_neg (by omega), ← BitVec.ofNat_add, align4_ofNat (by omega), align4_ofNat (by omega),
    ← BitVec.ofNat_add, ← BitVec.ofNat_add, take_of_length_le (by rw [length_cons]; omega),
    length_append, hlen, BitVec.toNat_ofNat, BitVec.toNat_ofNat, Nat.mod_eq_of_lt (by omega),
    Nat.mod_eq_of_lt (by omega)]
  have hempty : BitVec.ofNat 32 data.length = 0#32 ↔ data = [] := by
    rw [← length_eq_zero_iff, ← BitVec.toNat_inj, BitVec.toNat_ofNat, Nat.mod_eq_of_lt (by omega)]
    rfl
  simp only [hempty, show 110 + (name.length + 1) + 3 = name.length + 114 by omega, Nat.add_assoc]

theorem bootFrom_archive {ramfs : List Byte} (hsize : ramfs.length < 2 ^ 32) {files : List File}
    (hname : ∀ f ∈ files, f.name.length < 64 ∧ f.name ≠ trailer) {done : List Byte}
    (hramfs : ramfs = done ++ archive files) {turns : Nat} (hturns : files.length < turns) :
    ∃ calls, bootFrom ramfs turns (BitVec.ofNat 32 done.length) = some calls ∧
      calls.map (Create.shown ramfs) = (files.filter (·.data ≠ [])).map fun f =>
        (47 :: f.name, f.data, f.data.length) := by
  obtain ⟨turns, rfl⟩ := Nat.exists_eq_succ_of_ne_zero (Nat.ne_zero_of_lt hturns)
  induction files generalizing done turns with
  | nil =>
    rw [archive, flatMap_nil, nil_append, ← append_nil (cpioAddFile ..)] at hramfs
    obtain ⟨_, -, hboot⟩ := bootFrom_entry hsize hramfs (by decide) (by decide) turns
    exact ⟨[], hboot.trans (if_pos rfl), rfl⟩
  | cons f files ih =>
    obtain ⟨hlen, hne⟩ := hname f (.head _)
    rw [archive, flatMap_cons, append_assoc] at hramfs
    rw [length_cons] at hturns
    obtain ⟨turns, rfl⟩ := Nat.exists_eq_succ_of_ne_zero (show turns ≠ 0 by omega)
    obtain ⟨calls, hcalls, hshown⟩ := ih (fun f hf => hname f (.tail _ hf))
      (hramfs.trans (append_assoc ..).symm) turns (by omega)
    obtain ⟨new, hnew, hboot⟩ := bootFrom_entry hsize hramfs f.named hlen (turns + 1)
    rw [if_neg hne, hcalls] at hboot
    refine ⟨new ++ calls, hboot, ?_⟩
    rw [map_append, hnew, hshown]
    by_cases hempty : f.data = []
    · rw [if_pos hempty, filter_cons_of_neg (by simpa using hempty)]
      rfl
    · rw [if_neg hempty, filter_cons_of_pos (by simpa using hempty)]
      rfl

/-- Loading the archive of any files creates each that is not empty, in order. -/
theorem initramfs_round_trip (files : List File) (hsize : (archive files).length < 2 ^ 32)
    (hname : ∀ f ∈ files, f.name.length < 64 ∧ f.name ≠ trailer) :
    ∃ calls, initramfsBoot (archive files) = some calls ∧
      calls.map (Create.shown (archive files)) = (files.filter (·.data ≠ [])).map fun f =>
        (47 :: f.name, f.data, f.data.length) := by
  have hlen : files.length ≤ (archive files).length := by
    rw [archive, length_append, length_flatMap, ← length_map]
    refine (length_le_sum_of_one_le _ ?_).trans (Nat.le_add_right ..)
    simp [cpioAddFile, pad4, header, cpioMagic]
  exact bootFrom_archive hsize hname (nil_append _).symm (Nat.lt_succ_of_le hlen)

/-- Three files; the second is empty, and the name of the third is padded. -/
def someFiles : List File :=
  [⟨[97], [1, 2], by decide⟩, ⟨[98], [], by decide⟩, ⟨[99, 100, 101], [3, 4, 5, 6, 7], by decide⟩]

theorem initramfs_round_trip_some : ∃ calls, initramfsBoot (archive someFiles) = some calls ∧
    calls.map (Create.shown (archive someFiles)) =
      [([47, 97], [1, 2], 2), ([47, 99, 100, 101], [3, 4, 5, 6, 7], 5)] :=
  initramfs_round_trip someFiles (by decide +kernel) (by decide)

end Nyx.Initramfs
