import Nyx.Ext2.Volume

/-! What the functions of `ext2.c` compute, from volume to volume.

Here a block is a value: it is read, looked at, changed and written; `Nyx.Ext2.Driver` holds
blocks in the five buffers. Failure is `none`, 0 for a block or an inode number, or `false`.
The clock is read once in each function that stores a time (`now`). -/
namespace Nyx.Ext2
open Nyx.Lib

/-! ### Fields of the structures -/

namespace Bgd

variable (d : Bytes)

def blockBitmap : BitVec 32 := d.u32 0
def inodeBitmap : BitVec 32 := d.u32 4
def inodeTable : BitVec 32 := d.u32 8
def freeBlocksCount : BitVec 16 := d.u16 12
def freeInodesCount : BitVec 16 := d.u16 14
def usedDirsCount : BitVec 16 := d.u16 16

end Bgd

namespace Inode

variable (i : Bytes)

def mode : BitVec 16 := i.u16 0
def size : BitVec 32 := i.u32 4
def linksCount : BitVec 16 := i.u16 26
def block (k : Nat) : BitVec 32 := i.u32 (40 + 4 * k)

def setMode (m : BitVec 16) : Bytes := i.set16 0 m
def setSize (n : BitVec 32) : Bytes := i.set32 4 n
def setAtime (t : BitVec 32) : Bytes := i.set32 8 t
def setCtime (t : BitVec 32) : Bytes := i.set32 12 t
def setMtime (t : BitVec 32) : Bytes := i.set32 16 t
def setDtime (t : BitVec 32) : Bytes := i.set32 20 t
def setLinksCount (n : BitVec 16) : Bytes := i.set16 26 n
def setBlocks512 (n : BitVec 32) : Bytes := i.set32 28 n
def setBlock (k : Nat) (b : BitVec 32) : Bytes := i.set32 (40 + 4 * k) b

def isReg : Bool := mode i &&& sIfreg != 0
def isDir : Bool := mode i &&& sIfdir != 0

end Inode

namespace Dirent

variable (blk : Bytes)

def inode (off : Nat) : BitVec 32 := blk.u32 off
def recLen (off : Nat) : Nat := (blk.u16 (off + 4)).toNat
def nameLen (off : Nat) : Nat := (blk (off + 6)).toNat
def fileType (off : Nat) : BitVec 8 := blk (off + 7)

def name (off n : Nat) : List (BitVec 8) := (blk.list (off + direntHdr) n).takeWhile (· != 0)

def fill (off recLen : Nat) (ino : BitVec 32) (fileType : BitVec 8) (name : List (BitVec 8)) :
    Bytes :=
  let blk := (blk.set32 off ino).set8 (off + 6) (BitVec.ofNat 8 name.length)
  let blk := (blk.set8 (off + 7) fileType).put (off + direntHdr) (recLen - direntHdr) .zero
  blk.put (off + direntHdr) name.length (.ofList name)

/-- What an entry with a name of `n` bytes takes, in whole words. -/
def space (n : Nat) : Nat := (direntHdr + n + 3) / 4 * 4

theorem le_space (n : Nat) : direntHdr + n ≤ space n := by
  simp only [space, direntHdr]
  omega

end Dirent

namespace Volume
variable (g : Geometry) (v : Volume)

/-! ### Descriptors and inodes -/

/-- The block of the descriptor table that holds the descriptor of `group`. -/
def bgdPlace (group : Nat) : BitVec 32 := g.bgdBlock + BitVec.ofNat 32 (group / g.bgdPerBlock)

def bgdOffset (group : Nat) : Nat := group % g.bgdPerBlock * 32

def readBlockGroupBgd (group : Nat) : Bytes :=
  (v.readBlock g (bgdPlace g group)).slice (bgdOffset g group) 32

def writeBgd (group : Nat) (bgd : Bytes) : Volume :=
  v.writeBlock g (bgdPlace g group)
    ((v.readBlock g (bgdPlace g group)).put (bgdOffset g group) 32 bgd)

def inodeGroup (ino : BitVec 32) : Nat := (ino.toNat - 1) / g.inodesPerGroup
def inodeIndex (ino : BitVec 32) : Nat := (ino.toNat - 1) % g.inodesPerGroup

def inodePlace (ino : BitVec 32) : BitVec 32 :=
  Bgd.inodeTable (v.readBlockGroupBgd g (inodeGroup g ino)) +
    BitVec.ofNat 32 (inodeIndex g ino / g.inodesPerBlock)

def inodeOffset (ino : BitVec 32) : Nat := inodeIndex g ino % g.inodesPerBlock * g.inodeSize

/-- `sizeof(ext2_inode_t)` is 128. -/
def readInode (ino : BitVec 32) : Option Bytes :=
  if ino = 0 then none
  else some ((v.readBlock g (v.inodePlace g ino)).slice (inodeOffset g ino) 128)

def writeInode (ino : BitVec 32) (inode : Bytes) : Volume × Bool :=
  if ino = 0 then (v, false)
  else
    (v.writeBlock g (v.inodePlace g ino)
      ((v.readBlock g (v.inodePlace g ino)).put (inodeOffset g ino) 128 inode), true)

def bgdAdjustDirCount (up : Bool) : Volume :=
  let bgd := v.readBlockGroupBgd g 0
  let n := Bgd.usedDirsCount bgd
  v.writeBgd g 0 (bgd.set16 16 (if up then n + 1 else if 0 < n then n - 1 else n))

/-! ### Blocks of a file -/

def pointer (b : BitVec 32) : Option (BitVec 32) := if b = 0 then none else some b

/-- The block that `ext2_read_inode_block` reads. -/
def inodeBlock (inode : Bytes) (iblock : BitVec 32) : Option (BitVec 32) :=
  let n := iblock.toNat
  if n < 12 then pointer (Inode.block inode n)
  else if n - 12 < g.ptrsPerBlock then do
    let indirect ← pointer (Inode.block inode 12)
    pointer ((v.readBlock g indirect).u32 (4 * (n - 12)))
  else
    let n := n - 12 - g.ptrsPerBlock
    if n < g.ptrsPerBlock * g.ptrsPerBlock then do
      let dindirect ← pointer (Inode.block inode 13)
      let indirect ← pointer ((v.readBlock g dindirect).u32 (4 * (n / g.ptrsPerBlock)))
      pointer ((v.readBlock g indirect).u32 (4 * (n % g.ptrsPerBlock)))
    else none

def blockFuel : Nat := 12 + g.ptrsPerBlock + g.ptrsPerBlock * g.ptrsPerBlock + 1

end Volume

/-! ### Directories -/

/-- What a loop over the entries of a block does with one of them. -/
inductive Visit (σ : Type) where
  | next (s : σ)
  | stop (s : σ)

/-- The loop over the entries of a block that start below `limit`. It ends at an entry whose
length cannot be right. -/
def walk {σ : Type} (g : Geometry) (blk : Bytes) (limit : Nat) (visit : σ → Nat → Visit σ) :
    (fuel off : Nat) → σ → σ
  | 0, _, s => s
  | fuel + 1, off, s =>
    if off + direntHdr ≤ g.blockSize ∧ off < limit then
      if Dirent.recLen blk off < direntHdr ∨ g.blockSize < off + Dirent.recLen blk off then s
      else
        match visit s off with
        | .next s => walk g blk limit visit fuel (off + Dirent.recLen blk off) s
        | .stop s => s
    else s

def overruns (g : Geometry) (blk : Bytes) (off : Nat) : Bool :=
  decide (g.blockSize < off + direntHdr + Dirent.nameLen blk off)

/-- An entry against the component that `resolve_path` looks for. -/
def visitName (g : Geometry) (blk : Bytes) (component : List (BitVec 8))
    (s : Option (BitVec 32)) (off : Nat) : Visit (Option (BitVec 32)) :=
  if Dirent.inode blk off = 0 then .next s
  else if overruns g blk off then .stop s
  else if maxFilename ≤ Dirent.nameLen blk off then .next s
  else if Dirent.name blk off (Dirent.nameLen blk off) = component then
    .stop (some (Dirent.inode blk off))
  else .next s

namespace Volume
variable (g : Geometry) (v : Volume)

/-- The loop over the blocks of a directory. With `clamp` it ends at a last block that is not
full; without, the number of bytes left wraps. -/
def walkBlocks {σ : Type} (dir : Bytes) (clamp : Bool) (visit : σ → Bytes → Nat → σ)
    (done : σ → Bool) : (fuel : Nat) → (left iblock : BitVec 32) → σ → σ
  | 0, _, _, s => s
  | fuel + 1, left, iblock, s =>
    if left = 0 ∨ done s = true then s
    else
      match v.inodeBlock g dir iblock with
      | none => s
      | some b =>
        let s := visit s (v.readBlock g b) left.toNat
        if clamp = true ∧ left.toNat < g.blockSize then s
        else walkBlocks dir clamp visit done fuel (left - BitVec.ofNat 32 g.blockSize) (iblock + 1) s

def lookup (dir : Bytes) (component : List (BitVec 8)) : Option (BitVec 32) :=
  v.walkBlocks g dir false
    (fun s blk left => walk g blk left (visitName g blk component) g.blockSize 0 s)
    Option.isSome (blockFuel g) (Inode.size dir) 0 none

def slash : BitVec 8 := 0x2F#8

def components : List (BitVec 8) → List (List (BitVec 8))
  | [] => [[]]
  | c :: rest =>
    if c = slash then [] :: components rest
    else
      match components rest with
      | [] => [[c]]
      | first :: others => (c :: first) :: others

def resolveFrom (cur : BitVec 32) : List (List (BitVec 8)) → BitVec 32
  | [] => cur
  | c :: rest =>
    if maxFilename ≤ c.length then 0
    else if c = [] then resolveFrom cur rest
    else
      match (v.readInode g cur).bind (v.lookup g · c) with
      | none => 0
      | some ino => resolveFrom ino rest

def resolvePath (path : List (BitVec 8)) : BitVec 32 :=
  match path with
  | [] => 0
  | c :: rest =>
    if c ≠ slash then 0
    else if rest = [] then rootIno
    else v.resolveFrom g rootIno (components rest)

structure Listed where
  ino : BitVec 32
  name : List (BitVec 8)
  dir : Bool
deriving DecidableEq

end Volume

/-- An entry for `ext2_readdir`, which cuts long names. -/
def visitListed (g : Geometry) (blk : Bytes) (max : Nat) (s : List Volume.Listed) (off : Nat) :
    Visit (List Volume.Listed) :=
  let n := min (Dirent.nameLen blk off) (maxFilename - 1)
  if max ≤ s.length then .stop s
  else if Dirent.inode blk off = 0 then .next s
  else if g.blockSize < off + direntHdr + n then .stop s
  else if 0 < n then
    .next (s ++ [⟨Dirent.inode blk off, blk.list (off + direntHdr) n,
      Dirent.fileType blk off == ftDir⟩])
  else .next s

namespace Volume
variable (g : Geometry) (v : Volume)

/-- `max_entries` is compared as an `int`. -/
def readdir (path : List (BitVec 8)) (maxEntries : BitVec 32) : Option (List Listed) :=
  (v.readInode g (v.resolvePath g path)).bind fun inode =>
    if Inode.isDir inode then
      let max := maxEntries.toInt.toNat
      some (v.walkBlocks g inode false
        (fun s blk left => walk g blk left (visitListed g blk max) g.blockSize 0 s)
        (fun s => decide (max ≤ s.length)) (blockFuel g) (Inode.size inode) 0 [])
    else none

def readBlocks (inode : Bytes) : (fuel : Nat) → (iblock : BitVec 32) → (remaining : Nat) →
    List (BitVec 8)
  | 0, _, _ => []
  | fuel + 1, iblock, remaining =>
    if remaining = 0 then []
    else
      match v.inodeBlock g inode iblock with
      | none => []
      | some b =>
        (v.readBlock g b).list 0 (min remaining g.blockSize) ++
          readBlocks inode fuel (iblock + 1) (remaining - min remaining g.blockSize)

variable (inode : Bytes)

/-- What `ext2_read_file` copies once it has found the inode. -/
def readContents (maxlen : BitVec 32) : List (BitVec 8) :=
  v.readBlocks g inode (blockFuel g) 0 (min (Inode.size inode).toNat maxlen.toNat)

def readFile (path : List (BitVec 8)) (maxlen : BitVec 32) : Option (List (BitVec 8)) :=
  (v.readInode g (v.resolvePath g path)).bind fun inode =>
    if Inode.isReg inode then some (v.readContents g inode maxlen) else none

/-! ### Allocation -/

/-- `find_free_bit`. -/
def findFreeBit (bitmap : Bytes) (n : Nat) : Option Nat :=
  (List.range n).find? fun i => !Bitmap.test bitmap i

def allocBlock : Volume × BitVec 32 :=
  let bgd := v.readBlockGroupBgd g 0
  let bitmap := v.readBlock g (Bgd.blockBitmap bgd)
  match findFreeBit bitmap (min g.blocksPerGroup (g.blockSize * 8)) with
  | none => (v, 0)
  | some bit =>
    let b := v.firstDataBlock + BitVec.ofNat 32 bit
    if v.totalBlocks ≤ b then (v, 0)
    else
      let v := v.writeBlock g (Bgd.blockBitmap bgd) (Bitmap.set bitmap bit)
      let n := Bgd.freeBlocksCount bgd
      let v := v.writeBgd g 0 (if 0 < n then bgd.set16 12 (n - 1) else bgd)
      let v := if 0 < v.freeBlocks then v.setFreeBlocks (v.freeBlocks - 1) else v
      (v.writeBlock g b .zero, b)

def allocInode : Volume × BitVec 32 :=
  let bgd := v.readBlockGroupBgd g 0
  let bitmap := v.readBlock g (Bgd.inodeBitmap bgd)
  match findFreeBit bitmap (min g.inodesPerGroup (g.blockSize * 8)) with
  | none => (v, 0)
  | some bit =>
    let v := v.writeBlock g (Bgd.inodeBitmap bgd) (Bitmap.set bitmap bit)
    let n := Bgd.freeInodesCount bgd
    let v := v.writeBgd g 0 (if 0 < n then bgd.set16 14 (n - 1) else bgd)
    let v := if 0 < v.freeInodes then v.setFreeInodes (v.freeInodes - 1) else v
    (v, BitVec.ofNat 32 bit + 1)

def freeBlock (b : BitVec 32) : Volume :=
  let bit := (b - v.firstDataBlock).toNat
  if b < v.firstDataBlock ∨ g.blockSize * 8 ≤ bit then v
  else
    let bgd := v.readBlockGroupBgd g 0
    let bitmap := v.readBlock g (Bgd.blockBitmap bgd)
    if Bitmap.test bitmap bit then
      let v := v.writeBlock g (Bgd.blockBitmap bgd) (Bitmap.clear bitmap bit)
      let v := v.writeBgd g 0 (bgd.set16 12 (Bgd.freeBlocksCount bgd + 1))
      v.setFreeBlocks (v.freeBlocks + 1)
    else v

/-- The descriptor that is written is that of group 0, whatever the group of the inode. -/
def freeInode (ino : BitVec 32) : Volume :=
  if ino < rootIno then v
  else
    let bgd := v.readBlockGroupBgd g (inodeGroup g ino)
    let bitmap := v.readBlock g (Bgd.inodeBitmap bgd)
    if Bitmap.test bitmap (inodeIndex g ino) then
      let v := v.writeBlock g (Bgd.inodeBitmap bgd) (Bitmap.clear bitmap (inodeIndex g ino))
      let v := v.writeBgd g 0 (bgd.set16 14 (Bgd.freeInodesCount bgd + 1))
      v.setFreeInodes (v.freeInodes + 1)
    else v

/-- Frees the blocks that are listed in `table`. -/
def freeTable (table : Bytes) : Volume :=
  (List.range g.ptrsPerBlock).foldl
    (fun v i => if table.u32 (4 * i) ≠ 0 then v.freeBlock g (table.u32 (4 * i)) else v) v

/-- Frees the blocks listed in the blocks that are listed in `table`, and these. -/
def freeTables (table : Bytes) : Volume :=
  (List.range g.ptrsPerBlock).foldl (fun v i =>
      let b := table.u32 (4 * i)
      if b ≠ 0 then (v.freeTable g (v.readBlock g b)).freeBlock g b else v) v

def freeDirect : Volume × Bytes :=
  (List.range 12).foldl (fun (v, inode) i =>
      if Inode.block inode i ≠ 0 then
        (v.freeBlock g (Inode.block inode i), Inode.setBlock inode i 0)
      else (v, inode)) (v, inode)

def freeIndirect : Volume × Bytes :=
  let b := Inode.block inode 12
  if b ≠ 0 then ((v.freeTable g (v.readBlock g b)).freeBlock g b, Inode.setBlock inode 12 0)
  else (v, inode)

def freeDoubleIndirect : Volume × Bytes :=
  let b := Inode.block inode 13
  if b ≠ 0 then ((v.freeTables g (v.readBlock g b)).freeBlock g b, Inode.setBlock inode 13 0)
  else (v, inode)

/-- `free_inode_blocks`; the inode is left without blocks. -/
def freeInodeBlocks : Volume × Bytes :=
  let (v, inode) := v.freeDirect g inode
  let (v, inode) := v.freeIndirect g inode
  v.freeDoubleIndirect g inode

end Volume
end Nyx.Ext2
