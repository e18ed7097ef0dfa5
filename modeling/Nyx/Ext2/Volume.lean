import Nyx.Lib.Bitmap
import Nyx.Lib.Bytes

/-! A mounted ext2 volume (`ext2.h`, `ext2.c`).

The disk is an array of sectors. What `ext2_mount` takes from the superblock for good is the
`Geometry`, with the bounds that mounting checks; the superblock kept in memory and the disk are
the `Volume`. The structures on the disk are kept as the bytes they are. -/
namespace Nyx.Ext2
open Nyx.Lib BitVec

abbrev Disk := BitVec 32 → Bytes

def Disk.ofBlocks (blocks : Nat → Bytes) : Disk :=
  fun s o => blocks (s.toNat / 2) (s.toNat % 2 * 512 + o)

structure Geometry where
  part : BitVec 32
  blockSize : Nat
  inodesPerGroup : Nat
  blocksPerGroup : Nat
  inodeSize : Nat
  blockSize_eq : blockSize = 1024 ∨ blockSize = 2048 ∨ blockSize = 4096
  inodes_pos : 0 < inodesPerGroup
  blocks_pos : 0 < blocksPerGroup
  inodeSize_ge : 128 ≤ inodeSize
  inodeSize_le : inodeSize ≤ blockSize
  blocks_le : blocksPerGroup ≤ blockSize * 8
  inodes_le : inodesPerGroup ≤ blockSize * 8

structure Volume where
  sb : Bytes
  disk : Disk

/-! ### The superblock -/

namespace Volume
variable (v : Volume)

def totalBlocks : BitVec 32 := v.sb.u32 4
def freeBlocks : BitVec 32 := v.sb.u32 12
def freeInodes : BitVec 32 := v.sb.u32 16
def firstDataBlock : BitVec 32 := v.sb.u32 20

def setFreeBlocks (n : BitVec 32) : Volume := {v with sb := v.sb.set32 12 n}
def setFreeInodes (n : BitVec 32) : Volume := {v with sb := v.sb.set32 16 n}

end Volume

def superMagic : BitVec 16 := 0xEF53#16
def rootIno : BitVec 32 := 2#32
def sIfreg : BitVec 16 := 0x8000#16
def sIfdir : BitVec 16 := 0x4000#16
def ftRegFile : BitVec 8 := 1#8
def ftDir : BitVec 8 := 2#8
def maxFilename : Nat := 128
def maxPath : Nat := 256
def direntHdr : Nat := 8

/-- The two sectors from 2 on. -/
def readSuperblock (part : BitVec 32) (disk : Disk) : Bytes :=
  fun i => if i < 1024 then disk (part + 2#32 + BitVec.ofNat 32 (i / 512)) (i % 512) else 0

theorem blockSize_cases {n : Nat} (h : ¬ 2 < n) :
    1024 <<< n = 1024 ∨ 1024 <<< n = 2048 ∨ 1024 <<< n = 4096 := by
  have hle : n = 0 ∨ n = 1 ∨ n = 2 := by omega
  rcases hle with rfl | rfl | rfl <;> decide

/-- `ext2_mount`. -/
def mount (part : BitVec 32) (disk : Disk) : Option (Geometry × Volume) :=
  let sb := readSuperblock part disk
  let blockSize := 1024 <<< (sb.u32 24).toNat
  let inodesPerGroup := (sb.u32 40).toNat
  let blocksPerGroup := (sb.u32 32).toNat
  let inodeSize := if sb.u16 88 = 0 then 128 else (sb.u16 88).toNat
  if sb.u16 56 ≠ superMagic then none
  else if hlog : 2 < (sb.u32 24).toNat then none
  else if hzero : inodesPerGroup = 0 ∨ blocksPerGroup = 0 then none
  else if hsize : inodeSize < 128 ∨ blockSize < inodeSize then none
  else if hblocks : blockSize * 8 < blocksPerGroup then none
  else if hinodes : blockSize * 8 < inodesPerGroup then none
  else
    some (⟨part, blockSize, inodesPerGroup, blocksPerGroup, inodeSize, blockSize_cases hlog,
      by omega, by omega, by omega, by omega, by omega, by omega⟩, ⟨sb, disk⟩)

namespace Geometry
variable (g : Geometry)

/-- `1024 << 2` bytes need no more. -/
theorem blockSize_le : g.blockSize ≤ 4096 := by
  rcases g.blockSize_eq with h | h | h <;> omega

theorem blockSize_ge : 1024 ≤ g.blockSize := by
  rcases g.blockSize_eq with h | h | h <;> omega

def sectors : Nat := g.blockSize / 512

def ptrsPerBlock : Nat := g.blockSize / 4

def bgdBlock : BitVec 32 := if g.blockSize = 1024 then 2 else 1

/-- `sizeof(ext2_bgd_t)` is 32. -/
def bgdPerBlock : Nat := g.blockSize / 32

def inodesPerBlock : Nat := g.blockSize / g.inodeSize

/-- `block_to_lba`, from the start of the disk. -/
def lba (b : BitVec 32) : BitVec 32 := g.part + b * BitVec.ofNat 32 g.sectors

end Geometry

namespace Volume
variable (g : Geometry) (v : Volume)

/-! ### Blocks -/

/-- `ext2_read_block`. -/
def readBlock (b : BitVec 32) : Bytes :=
  fun i => if i < g.blockSize then v.disk (g.lba b + BitVec.ofNat 32 (i / 512)) (i % 512) else 0

/-- `ext2_write_block`. -/
def writeBlock (b : BitVec 32) (data : Bytes) : Volume :=
  { v with
    disk := fun s o =>
      if (s - g.lba b).toNat < g.sectors ∧ o < 512 then data ((s - g.lba b).toNat * 512 + o)
      else v.disk s o }

/-- `ext2_sync_superblock`. -/
def syncSuperblock : Volume :=
  { v with
    disk := fun s o =>
      if (s - (g.part + 2#32)).toNat < 2 ∧ o < 512 then v.sb ((s - (g.part + 2#32)).toNat * 512 + o)
      else v.disk s o }

end Volume

/-! ### What is read after a write -/

namespace Geometry
variable (g : Geometry)

theorem blockSize_eq_sectors : g.blockSize = g.sectors * 512 := by
  rcases g.blockSize_eq with h | h | h <;> simp [sectors, h]

theorem sectors_le : g.sectors ≤ 8 := by
  have h := g.blockSize_eq_sectors
  have hle := g.blockSize_le
  omega

def Addressable (b : BitVec 32) : Prop := (b.toNat + 1) * g.sectors ≤ 2 ^ 32

variable {g} {b b' : BitVec 32}

theorem lba_sub_same (b : BitVec 32) {k : Nat} (hk : k < g.sectors) :
    (g.lba b + BitVec.ofNat 32 k - g.lba b).toNat = k := by
  have hle := g.sectors_le
  rw [BitVec.add_comm, BitVec.add_sub_cancel, toNat_ofNat, Nat.mod_eq_of_lt (by omega)]

theorem lba_sub_ne (hne : b' ≠ b) (hb : g.Addressable b) (hb' : g.Addressable b') {k : Nat}
    (hk : k < g.sectors) : g.sectors ≤ (g.lba b' + BitVec.ofNat 32 k - g.lba b).toNat := by
  have hle := g.sectors_le
  rw [Addressable, Nat.add_mul, Nat.one_mul] at hb hb'
  have hdiff : (g.lba b' + BitVec.ofNat 32 k - g.lba b).toNat =
      (2 ^ 32 - b.toNat * g.sectors + (b'.toNat * g.sectors + k)) % 2 ^ 32 := by
    have hcancel : g.lba b' + BitVec.ofNat 32 k - g.lba b =
        b' * BitVec.ofNat 32 g.sectors + BitVec.ofNat 32 k - b * BitVec.ofNat 32 g.sectors := by
      rw [lba, lba]
      ring
    rw [hcancel]
    simp only [toNat_sub, toNat_add, toNat_mul, toNat_ofNat]
    rw [Nat.mod_eq_of_lt (show g.sectors < 2 ^ 32 by omega), Nat.mod_eq_of_lt (show k < 2 ^ 32 by omega),
      Nat.mod_eq_of_lt (show b.toNat * g.sectors < 2 ^ 32 by omega),
      Nat.mod_eq_of_lt (show b'.toNat * g.sectors < 2 ^ 32 by omega),
      Nat.mod_eq_of_lt (show b'.toNat * g.sectors + k < 2 ^ 32 by omega)]
  rw [hdiff]
  rcases Nat.lt_or_gt_of_ne fun h => hne (eq_of_toNat_eq h) with hlt | hgt
  · have hstep := Nat.mul_le_mul_right g.sectors (Nat.succ_le_of_lt hlt)
    rw [Nat.succ_mul] at hstep
    rw [Nat.mod_eq_of_lt (by omega)]
    omega
  · have hstep := Nat.mul_le_mul_right g.sectors (Nat.succ_le_of_lt hgt)
    rw [Nat.succ_mul] at hstep
    omega

end Geometry

namespace Volume
variable {g : Geometry} {v : Volume} {b b' : BitVec 32} {data : Bytes}

theorem readBlock_writeBlock : (v.writeBlock g b data).readBlock g b = data.slice 0 g.blockSize := by
  funext i
  rw [readBlock, Bytes.slice]
  split
  case isTrue hi =>
    have hsector : i / 512 < g.sectors := by
      have h := g.blockSize_eq_sectors
      omega
    simp only [writeBlock, Geometry.lba_sub_same b hsector]
    rw [if_pos ⟨hsector, Nat.mod_lt _ (by omega)⟩, Nat.zero_add, Nat.div_add_mod']
  case isFalse => rfl

theorem readBlock_writeBlock_ne (hne : b' ≠ b) (hb : g.Addressable b) (hb' : g.Addressable b') :
    (v.writeBlock g b data).readBlock g b' = v.readBlock g b' := by
  funext i
  rw [readBlock, readBlock]
  split
  case isTrue hi =>
    have hsector : i / 512 < g.sectors := by
      have h := g.blockSize_eq_sectors
      omega
    have hout := Geometry.lba_sub_ne hne hb hb' hsector
    simp only [writeBlock]
    rw [if_neg fun h => Nat.not_lt.mpr hout h.1]
  case isFalse => rfl

end Volume
end Nyx.Ext2
