import Nyx.Ext2.Operations

/-! The functions of `ext2.c` that change a volume: what they compute. -/
namespace Nyx.Ext2
open Nyx.Lib Inode

namespace Volume
variable (g : Geometry) (v : Volume)

/-! ### Writing a file -/

variable (inode : Bytes)

/-- The inode with the indirect block that `ext2_write_file` needs. -/
def withIndirect : Volume × Option Bytes :=
  if block inode 12 = 0 then
    let (v, b) := v.allocBlock g
    if b = 0 then (v, none) else (v, some (setBlock inode 12 b))
  else (v, some inode)

/-- The block of a file that `ext2_write_file` writes next. A missing one is allocated, and then
the inode names it, or the indirect block does. -/
def blockFor (iblock : Nat) : Volume × Option (Bytes × BitVec 32) :=
  if iblock < 12 then
    if block inode iblock = 0 then
      let (v, b) := v.allocBlock g
      if b = 0 then (v, none) else (v, some (setBlock inode iblock b, b))
    else (v, some (inode, block inode iblock))
  else if iblock - 12 < g.ptrsPerBlock then
    match v.withIndirect g inode with
    | (v, none) => (v, none)
    | (v, some inode) =>
      let table := v.readBlock g (block inode 12)
      let b := table.u32 (4 * (iblock - 12))
      if b = 0 then
        let (v, b) := v.allocBlock g
        if b = 0 then (v, none)
        else
          (v.writeBlock g (block inode 12) (table.set32 (4 * (iblock - 12)) b), some (inode, b))
      else (v, some (inode, b))
  else (v, none)

/-- The loop of `ext2_write_file`; the last block is filled up with zeros. -/
def writeBlocks : (fuel : Nat) → Volume → (inode : Bytes) → (iblock : Nat) → List (BitVec 8) →
    Volume × Option Bytes
  | 0, v, inode, _, _ => (v, some inode)
  | fuel + 1, v, inode, iblock, data =>
    if data = [] then (v, some inode)
    else
      match v.blockFor g inode iblock with
      | (v, none) => (v, none)
      | (v, some (inode, b)) =>
        writeBlocks fuel (v.writeBlock g b (.ofList (data.take g.blockSize))) inode (iblock + 1)
          (data.drop g.blockSize)

/-- The inode once `len` bytes are written. -/
def written (len : BitVec 32) (now : BitVec 32) : Bytes :=
  let bs := BitVec.ofNat 32 g.blockSize
  let metaBlocks : BitVec 32 := if block inode 12 ≠ 0 then 1 else 0
  let blocks := ((len + bs - 1) / bs + metaBlocks) * BitVec.ofNat 32 g.sectors
  let inode := setBlocks512 (setSize inode len) blocks
  setMtime (setCtime inode now) now

/-- `ext2_write_file` from where the inode is known. -/
def writeContents (ino : BitVec 32) (data : List (BitVec 8)) (now : BitVec 32) :
    Volume × Option (BitVec 32) :=
  match v.readInode g ino with
  | none => (v, none)
  | some inode =>
    if isReg inode then
      match writeBlocks g data.length v inode 0 data with
      | (v, none) => (v, none)
      | (v, some inode) =>
        let len := BitVec.ofNat 32 data.length
        ((v.writeInode g ino (written g inode len now)).1.syncSuperblock g, some len)
    else (v, none)

/-! ### Directory entries -/

/-- `split_parent_child`. -/
def splitParentChild (path : List (BitVec 8)) : Option (List (BitVec 8) × List (BitVec 8)) :=
  if path.head? ≠ some slash then none
  else
    let child := (path.reverse.takeWhile (· != slash)).reverse
    let lastSlash := path.length - child.length - 1
    if child = [] ∨ maxFilename ≤ child.length then none
    else if lastSlash = 0 then some ([slash], child)
    else if maxPath ≤ lastSlash then none
    else some (path.take lastSlash, child)

end Volume

/-- An entry for `add_dirent_to_parent`: the block with the new entry, if there is room in this
one, which is free or can be split. -/
def visitRoom (blk : Bytes) (name : List (BitVec 8)) (ino : BitVec 32) (fileType : BitVec 8)
    (s : Option Bytes) (off : Nat) : Visit (Option Bytes) :=
  let recLen := Dirent.recLen blk off
  let entrySize := Dirent.space name.length
  if Dirent.inode blk off = 0 then
    if entrySize ≤ recLen then .stop (some (Dirent.fill blk off recLen ino fileType name)) else .next s
  else
    let minSize := Dirent.space (Dirent.nameLen blk off)
    if minSize + entrySize ≤ recLen then
      let blk := blk.set16 (off + 4) (BitVec.ofNat 16 minSize)
      let blk := blk.set16 (off + minSize + 4) (BitVec.ofNat 16 (recLen - minSize))
      .stop (some (Dirent.fill blk (off + minSize) (recLen - minSize) ino fileType name))
    else .next s

def newDirBlock (g : Geometry) (name : List (BitVec 8)) (ino : BitVec 32) (fileType : BitVec 8) :
    Bytes :=
  let blk := (Bytes.zero.set32 0 ino).set16 4 (BitVec.ofNat 16 g.blockSize)
  let blk := (blk.set8 6 (BitVec.ofNat 8 name.length)).set8 7 fileType
  blk.put direntHdr name.length (.ofList name)

namespace Volume
variable (g : Geometry) (v : Volume)

/-- The loop of `add_dirent_to_parent` over the direct blocks: the volume with the new entry, or
the place in the inode where the loop ended. -/
def addToBlocks (parent : Bytes) (name : List (BitVec 8)) (ino : BitVec 32) (fileType : BitVec 8) :
    (fuel iblock : Nat) → Volume ⊕ Nat
  | 0, iblock => .inr iblock
  | fuel + 1, iblock =>
    if iblock < 12 ∧ iblock * g.blockSize < (size parent).toNat then
      let b := block parent iblock
      if b = 0 then .inr iblock
      else
        let blk := v.readBlock g b
        match walk g blk g.blockSize (visitRoom blk name ino fileType) g.blockSize 0 none with
        | some blk => .inl (v.writeBlock g b blk)
        | none => addToBlocks parent name ino fileType fuel (iblock + 1)
    else .inr iblock

def addDirentToParent (parentIno : BitVec 32) (name : List (BitVec 8)) (ino : BitVec 32)
    (fileType : BitVec 8) : Volume × Bool :=
  match v.readInode g parentIno with
  | none => (v, false)
  | some parent =>
    if !isDir parent then (v, false)
    else if name.length = 0 ∨ maxFilename ≤ name.length then (v, false)
    else
      match v.addToBlocks g parent name ino fileType 13 0 with
      | .inl v => ((v.writeInode g parentIno parent).1, true)
      | .inr iblock =>
        if 12 ≤ iblock then (v, false)
        else
          let (v, b) := v.allocBlock g
          if b = 0 then (v, false)
          else
            let v := v.writeBlock g b (newDirBlock g name ino fileType)
            let parent := setBlock parent iblock b
            let parent := setSize parent (size parent + BitVec.ofNat 32 g.blockSize)
            ((v.writeInode g parentIno parent).1, true)

/-! ### Creating -/

/-- `EXT2_S_IFREG | 0644`. -/
def newFile (now : BitVec 32) : Bytes :=
  let inode := setLinksCount (setMode .zero (sIfreg ||| 0x1A4#16)) 1
  setAtime (setCtime (setMtime inode now) now) now

def createFile (path : List (BitVec 8)) (now : BitVec 32) : Volume × Bool :=
  if v.resolvePath g path ≠ 0 then (v, false)
  else
    match splitParentChild path with
    | none => (v, false)
    | some (parentPath, filename) =>
      let parentIno := v.resolvePath g parentPath
      if parentIno = 0 then (v, false)
      else
        let (v, ino) := v.allocInode g
        if ino = 0 then (v, false)
        else
          let (v, _) := v.writeInode g ino (newFile now)
          match v.addDirentToParent g parentIno filename ino ftRegFile with
          | (v, false) => (v.freeInode g ino, false)
          | (v, true) => (v.syncSuperblock g, true)

/-- `created` is the time if the file has to be created, `now` that of the writing. -/
def writeFile (path data : List (BitVec 8)) (created now : BitVec 32) :
    Volume × Option (BitVec 32) :=
  let ino := v.resolvePath g path
  if ino ≠ 0 then v.writeContents g ino data now
  else
    match v.createFile g path created with
    | (v, false) => (v, none)
    | (v, true) =>
      let ino := v.resolvePath g path
      if ino = 0 then (v, none) else v.writeContents g ino data now

/-- `EXT2_S_IFDIR | 0777`. -/
def newDir (first : BitVec 32) (now : BitVec 32) : Bytes :=
  let inode := setLinksCount (setMode .zero (sIfdir ||| 0x1FF#16)) 2
  let inode := setSize inode (BitVec.ofNat 32 g.blockSize)
  let inode := setBlocks512 inode (BitVec.ofNat 32 g.sectors)
  setBlock (setAtime (setCtime (setMtime inode now) now) now) 0 first

def dot : List (BitVec 8) := [0x2E#8]
def dotDot : List (BitVec 8) := [0x2E#8, 0x2E#8]

def dotBlock (ino parentIno : BitVec 32) : Bytes :=
  let blk := (Bytes.zero.set32 0 ino).set16 4 12
  let blk := ((blk.set8 6 1).set8 7 ftDir).put 8 1 (.ofList dot)
  let blk := (blk.set32 12 parentIno).set16 16 (BitVec.ofNat 16 (g.blockSize - 12))
  ((blk.set8 18 2).set8 19 ftDir).put 20 2 (.ofList dotDot)

def addLink (ino : BitVec 32) : Volume :=
  match v.readInode g ino with
  | none => v
  | some inode => (v.writeInode g ino (setLinksCount inode (linksCount inode + 1))).1

def mkdir (path : List (BitVec 8)) (now : BitVec 32) : Volume × Bool :=
  if v.resolvePath g path ≠ 0 then (v, false)
  else
    match splitParentChild path with
    | none => (v, false)
    | some (parentPath, dirname) =>
      let parentIno := v.resolvePath g parentPath
      if parentIno = 0 then (v, false)
      else
        let (v, ino) := v.allocInode g
        if ino = 0 then (v, false)
        else
          let (v, first) := v.allocBlock g
          if first = 0 then (v.freeInode g ino, false)
          else
            let v := v.writeBlock g first (dotBlock g ino parentIno)
            let (v, _) := v.writeInode g ino (newDir g first now)
            match v.addDirentToParent g parentIno dirname ino ftDir with
            | (v, false) => ((v.freeInodeBlocks g (newDir g first now)).1.freeInode g ino, false)
            | (v, true) => (((v.addLink g parentIno).bgdAdjustDirCount g true).syncSuperblock g, true)

end Volume

/-! ### Unlinking -/

/-- An entry for the check that a directory is empty: is it another one than `.` and `..`? -/
def visitOther (g : Geometry) (blk : Bytes) (s : Bool) (off : Nat) : Visit Bool :=
  let n := Dirent.nameLen blk off
  if overruns g blk off then .stop s
  else if Dirent.inode blk off ≠ 0 ∧ blk.list (off + direntHdr) n ≠ Volume.dot ∧
      blk.list (off + direntHdr) n ≠ Volume.dotDot then .stop true
  else .next s

def visitChild (g : Geometry) (blk : Bytes) (child : List (BitVec 8)) (s : Option Nat)
    (off : Nat) : Visit (Option Nat) :=
  let n := Dirent.nameLen blk off
  if overruns g blk off then .stop s
  else if Dirent.inode blk off ≠ 0 ∧ n = child.length ∧ n < maxFilename ∧
      Dirent.name blk off n = child then .stop (some off)
  else .next s

namespace Volume
variable (g : Geometry) (v : Volume)

/-- Has the directory an entry that is not one of its own? -/
def occupied (dir : Bytes) : Bool :=
  v.walkBlocks g dir true
    (fun s blk left => walk g blk left (visitOther g blk) g.blockSize 0 s) id (blockFuel g)
    (size dir) 0 false

/-- The loop of `ext2_unlink` over the direct blocks of the parent. -/
def removeFromBlocks (parent : Bytes) (child : List (BitVec 8)) :
    (fuel : Nat) → (left : BitVec 32) → (iblock : Nat) → Option Volume
  | 0, _, _ => none
  | fuel + 1, left, iblock =>
    if left = 0 ∨ 12 ≤ iblock then none
    else
      let b := block parent iblock
      if b = 0 then none
      else
        let blk := v.readBlock g b
        match walk g blk left.toNat (visitChild g blk child) g.blockSize 0 none with
        | some off => some (v.writeBlock g b (blk.set32 off 0))
        | none =>
          if left.toNat < g.blockSize then none
          else removeFromBlocks parent child fuel (left - BitVec.ofNat 32 g.blockSize) (iblock + 1)

def dropLink (ino : BitVec 32) (inode : Bytes) (now : BitVec 32) : Volume :=
  if 0 < linksCount inode then
    let inode := setLinksCount inode (linksCount inode - 1)
    if linksCount inode = 0 then
      let (v, inode) := v.freeInodeBlocks g inode
      (v.writeInode g ino (setSize (setDtime inode now) 0)).1.freeInode g ino
    else (v.writeInode g ino inode).1
  else v

/-- `ext2_unlink` once the entry is removed. -/
def unlinked (ino : BitVec 32) (inode : Bytes) (parentIno : BitVec 32) (parent : Bytes)
    (now : BitVec 32) : Volume :=
  let parent := if isDir inode then
      setLinksCount parent (linksCount parent - 1)
    else parent
  let v := ((v.dropLink g ino inode now).writeInode g parentIno parent).1
  (if isDir inode then v.bgdAdjustDirCount g false else v).syncSuperblock g

def unlink (path : List (BitVec 8)) (now : BitVec 32) : Volume × Bool :=
  let ino := v.resolvePath g path
  if ino < rootIno then (v, false)
  else
    match v.readInode g ino with
    | none => (v, false)
    | some inode =>
      if isDir inode && v.occupied g inode then (v, false)
      else
        match splitParentChild path with
        | none => (v, false)
        | some (parentPath, child) =>
          let parentIno := v.resolvePath g parentPath
          match v.readInode g parentIno with
          | none => (v, false)
          | some parent =>
            match v.removeFromBlocks g parent child 13 (size parent) 0 with
            | none => (v, false)
            | some v => (v.unlinked g ino inode parentIno parent now, true)

end Volume

/-! ### Calls -/

/-- What the rest of the kernel can ask of the driver. -/
inductive Call where
  | resolve (path : List (BitVec 8))
  | readFile (path : List (BitVec 8)) (maxlen : BitVec 32)
  | readdir (path : List (BitVec 8)) (maxEntries : BitVec 32)
  | createFile (path : List (BitVec 8)) (now : BitVec 32)
  | writeFile (path data : List (BitVec 8)) (created now : BitVec 32)
  | mkdir (path : List (BitVec 8)) (now : BitVec 32)
  | unlink (path : List (BitVec 8)) (now : BitVec 32)

/-- What the caller gets: the returned value and what is in its buffer. -/
inductive Reply where
  | ino (n : BitVec 32)
  | contents (bytes : Option (List (BitVec 8)))
  | listing (entries : Option (List Volume.Listed))
  | length (n : Option (BitVec 32))
  | done (ok : Bool)
deriving DecidableEq

def Volume.call (g : Geometry) (v : Volume) : Call → Reply × Volume
  | .resolve path => (.ino (v.resolvePath g path), v)
  | .readFile path maxlen => (.contents (v.readFile g path maxlen), v)
  | .readdir path maxEntries => (.listing (v.readdir g path maxEntries), v)
  | .createFile path now =>
    let (v, ok) := v.createFile g path now
    (.done ok, v)
  | .writeFile path data created now =>
    let (v, n) := v.writeFile g path data created now
    (.length n, v)
  | .mkdir path now =>
    let (v, ok) := v.mkdir g path now
    (.done ok, v)
  | .unlink path now =>
    let (v, ok) := v.unlink g path now
    (.done ok, v)

def Volume.calls (g : Geometry) : List Call → Volume → List Reply × Volume
  | [], v => ([], v)
  | c :: rest, v =>
    let (reply, v) := v.call g c
    let (replies, v) := calls g rest v
    (reply :: replies, v)

end Nyx.Ext2
