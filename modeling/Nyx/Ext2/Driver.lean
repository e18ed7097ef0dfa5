import Nyx.Ext2.Updates
import Nyx.Lib.Buffers

/-! The functions of `ext2.c` as they use the five block buffers.

Every access to a buffer, to the block numbers of an inode, to the arrays for names and paths
and to the caller's buffer is checked, as is every divisor, and every loop has a limit; what
fails a check is a `Fault`. A function loads and stores a buffer as a whole. How
`get_block_buf` and the others hand out buffers is left to `Buffers`. -/
namespace Nyx.Ext2.Driver
open Nyx.Lib Nyx.Lib.Buffers.Prog Inode Volume

inductive Fault where
  | bounds
  | divide
  | timeout
deriving DecidableEq

/-! ### Checked access -/

abbrev Checked := Except Fault

def check (p : Prop) [Decidable p] : Checked Unit := if p then .ok () else .error .bounds

def div (a b : Nat) : Checked Nat := if b = 0 then .error .divide else .ok (a / b)

def rem (a b : Nat) : Checked Nat := if b = 0 then .error .divide else .ok (a % b)

section
variable (g : Geometry) (blk : Bytes)

def byteAt (o : Nat) : Checked (BitVec 8) := do
  check (o < g.blockSize)
  return blk o

def u16At (o : Nat) : Checked (BitVec 16) := do
  check (o + 2 ≤ g.blockSize)
  return blk.u16 o

def u32At (o : Nat) : Checked (BitVec 32) := do
  check (o + 4 ≤ g.blockSize)
  return blk.u32 o

def sliceAt (o n : Nat) : Checked Bytes := do
  check (o + n ≤ g.blockSize)
  return blk.slice o n

/-- `memcpy` out of a block into an array of `room` bytes. -/
def listAt (o n room : Nat) : Checked (List (BitVec 8)) := do
  check (o + n ≤ g.blockSize ∧ n ≤ room)
  return blk.list o n

def putAt (o n : Nat) (src : Bytes) : Checked Bytes := do
  check (o + n ≤ g.blockSize)
  return blk.put o n src

end

/-- `inode->block[k]`. -/
def blockAt (inode : Bytes) (k : Nat) : Checked (BitVec 32) := do
  check (k < 15)
  return block inode k

def setBlockAt (inode : Bytes) (k : Nat) (b : BitVec 32) : Checked Bytes := do
  check (k < 15)
  return setBlock inode k b

/-- `buf[bit / 8]` is in the block. -/
def testAt (g : Geometry) (bitmap : Bytes) (bit : Nat) : Checked Bool := do
  check (bit / 8 < g.blockSize)
  return Bitmap.test bitmap bit

/-! ### Loops over the entries of a block -/

def walk {σ : Type} (g : Geometry) (blk : Bytes) (limit : Nat) (visit : σ → Nat → Checked (Visit σ)) :
    (fuel off : Nat) → σ → Checked σ
  | 0, _, _ => .error .timeout
  | fuel + 1, off, s => do
    if off + direntHdr ≤ g.blockSize ∧ off < limit then
      let recLen := (← u16At g blk (off + 4)).toNat
      if recLen < direntHdr ∨ g.blockSize < off + recLen then return s
      match ← visit s off with
      | .next s => walk g blk limit visit fuel (off + recLen) s
      | .stop s => return s
    else return s

def visitName (g : Geometry) (blk : Bytes) (component : List (BitVec 8)) (s : Option (BitVec 32))
    (off : Nat) : Checked (Visit (Option (BitVec 32))) := do
  let ino ← u32At g blk off
  if ino = 0 then return .next s
  let n := (← byteAt g blk (off + 6)).toNat
  if g.blockSize < off + direntHdr + n then return .stop s
  if maxFilename ≤ n then return .next s
  let dname ← listAt g blk (off + direntHdr) n maxFilename
  check (n < maxFilename)
  if dname.takeWhile (· != 0) = component then return .stop (some ino)
  return .next s

def visitListed (g : Geometry) (blk : Bytes) (max : Nat) (s : List Volume.Listed) (off : Nat) :
    Checked (Visit (List Volume.Listed)) := do
  if max ≤ s.length then return .stop s
  let ino ← u32At g blk off
  if ino = 0 then return .next s
  let n := min (← byteAt g blk (off + 6)).toNat (maxFilename - 1)
  if g.blockSize < off + direntHdr + n then return .stop s
  if 0 < n then
    check (s.length < max)
    let name ← listAt g blk (off + direntHdr) n maxFilename
    check (n < maxFilename)
    let fileType ← byteAt g blk (off + 7)
    return .next (s ++ [⟨ino, name, fileType == ftDir⟩])
  return .next s

def fill (g : Geometry) (blk : Bytes) (off recLen : Nat) (ino : BitVec 32) (fileType : BitVec 8)
    (name : List (BitVec 8)) : Checked Bytes := do
  let blk ← putAt g blk off 4 (.le ino)
  let blk ← putAt g blk (off + 6) 1 (.le (BitVec.ofNat 8 name.length))
  let blk ← putAt g blk (off + 7) 1 (.le fileType)
  let blk ← putAt g blk (off + direntHdr) (recLen - direntHdr) .zero
  putAt g blk (off + direntHdr) name.length (.ofList name)

def visitRoom (g : Geometry) (blk : Bytes) (name : List (BitVec 8)) (ino : BitVec 32)
    (fileType : BitVec 8) (s : Option Bytes) (off : Nat) : Checked (Visit (Option Bytes)) := do
  let recLen := (← u16At g blk (off + 4)).toNat
  let n := (← byteAt g blk (off + 6)).toNat
  let entrySize := Dirent.space name.length
  if (← u32At g blk off) = 0 then
    if entrySize ≤ recLen then return .stop (some (← fill g blk off recLen ino fileType name))
  else
    let minSize := Dirent.space n
    if minSize + entrySize ≤ recLen then
      let blk ← putAt g blk (off + 4) 2 (.le (BitVec.ofNat 16 minSize))
      let blk ← putAt g blk (off + minSize + 4) 2 (.le (BitVec.ofNat 16 (recLen - minSize)))
      return .stop (some (← fill g blk (off + minSize) (recLen - minSize) ino fileType name))
  return .next s

def visitOther (g : Geometry) (blk : Bytes) (s : Bool) (off : Nat) : Checked (Visit Bool) := do
  let n := (← byteAt g blk (off + 6)).toNat
  if g.blockSize < off + direntHdr + n then return .stop s
  let ino ← u32At g blk off
  let name ← listAt g blk (off + direntHdr) n n
  if ino ≠ 0 ∧ name ≠ dot ∧ name ≠ dotDot then return .stop true
  return .next s

def visitChild (g : Geometry) (blk : Bytes) (child : List (BitVec 8)) (s : Option Nat) (off : Nat) :
    Checked (Visit (Option Nat)) := do
  let n := (← byteAt g blk (off + 6)).toNat
  if g.blockSize < off + direntHdr + n then return .stop s
  if (← u32At g blk off) ≠ 0 ∧ n = child.length ∧ n < maxFilename then
    let dname ← listAt g blk (off + direntHdr) n maxFilename
    check (n < maxFilename)
    if dname.takeWhile (· != 0) = child then return .stop (some off)
  return .next s

/-- The scan of `find_free_bit`. -/
def findFreeBit (g : Geometry) (bitmap : Bytes) (n : Nat) : (fuel i : Nat) → Checked (Option Nat)
  | 0, _ => .error .timeout
  | fuel + 1, i => do
    if i < n then
      if ← testAt g bitmap i then findFreeBit g bitmap n fuel (i + 1) else return some i
    else return none

/-! ### Blocks and descriptors -/

/-- The five roles of `ext2_bufs`. -/
def blockBuf : Fin 5 := 0
def bitmapBuf : Fin 5 := 1
def auxBuf : Fin 5 := 2
def aux2Buf : Fin 5 := 3
def metaBuf : Fin 5 := 4

variable (g : Geometry) {B : Buffers (Fin 5) Bytes}

abbrev Run (B : Buffers (Fin 5) Bytes) (α : Type) := B.Prog Volume Fault α

def readBlock (b : BitVec 32) (h : B.Handle) : Run B Unit := fetch (fun v => v.readBlock g b) h

def writeBlock (b : BitVec 32) (h : B.Handle) : Run B Unit :=
  flush (fun data v => v.writeBlock g b data) h

def bgdPlace (group : Nat) : Checked (BitVec 32 × Nat) := do
  let per ← div g.blockSize 32
  let q ← div group per
  let r ← rem group per
  return (g.bgdBlock + BitVec.ofNat 32 q, r * 32)

def readBlockGroupBgd (group : Nat) : Run B Bytes := do
  let (b, o) ← attempt (bgdPlace g group)
  let buf ← buffer metaBuf
  readBlock g b buf
  attempt (sliceAt g (← load buf) o 32)

def writeBgd (group : Nat) (bgd : Bytes) : Run B Unit := do
  let (b, o) ← attempt (bgdPlace g group)
  let buf ← buffer metaBuf
  readBlock g b buf
  store buf (← attempt (putAt g (← load buf) o 32 bgd))
  writeBlock g b buf

def inodePlace (ino : BitVec 32) : Run B (BitVec 32 × Nat) := do
  let group ← attempt (div (ino.toNat - 1) g.inodesPerGroup)
  let index ← attempt (rem (ino.toNat - 1) g.inodesPerGroup)
  let bgd ← readBlockGroupBgd g group
  let per ← attempt (div g.blockSize g.inodeSize)
  let q ← attempt (div index per)
  let r ← attempt (rem index per)
  return (Bgd.inodeTable bgd + BitVec.ofNat 32 q, r * g.inodeSize)

def readInode (ino : BitVec 32) : Run B (Option Bytes) := do
  if ino = 0 then return none
  let (b, o) ← inodePlace g ino
  let buf ← buffer metaBuf
  readBlock g b buf
  return some (← attempt (sliceAt g (← load buf) o 128))

def writeInode (ino : BitVec 32) (inode : Bytes) : Run B Bool := do
  if ino = 0 then return false
  let (b, o) ← inodePlace g ino
  let buf ← buffer blockBuf
  readBlock g b buf
  store buf (← attempt (putAt g (← load buf) o 128 inode))
  writeBlock g b buf
  return true

def bgdAdjustDirCount (up : Bool) : Run B Unit := do
  let bgd ← readBlockGroupBgd g 0
  let n := Bgd.usedDirsCount bgd
  writeBgd g 0 (bgd.set16 16 (if up then n + 1 else if 0 < n then n - 1 else n))

def syncSuperblock : Run B Unit := act fun v => ((), v.syncSuperblock g)

/-! ### Reading -/

/-- The block goes to the caller's buffer, the tables of block numbers to the auxiliary ones. -/
def readInodeBlock (inode : Bytes) (iblock : BitVec 32) (h : B.Handle) : Run B Bool := do
  let n := iblock.toNat
  if n < 12 then
    let b ← attempt (blockAt inode n)
    if b = 0 then return false
    readBlock g b h
    return true
  let n := n - 12
  if n < g.ptrsPerBlock then
    let table ← attempt (blockAt inode 12)
    if table = 0 then return false
    let indirect ← buffer auxBuf
    readBlock g table indirect
    let b ← attempt (u32At g (← load indirect) (4 * n))
    if b = 0 then return false
    readBlock g b h
    return true
  let n := n - g.ptrsPerBlock
  if n < g.ptrsPerBlock * g.ptrsPerBlock then
    let table ← attempt (blockAt inode 13)
    if table = 0 then return false
    let dindirect ← buffer auxBuf
    readBlock g table dindirect
    let q ← attempt (div n g.ptrsPerBlock)
    let second ← attempt (u32At g (← load dindirect) (4 * q))
    if second = 0 then return false
    let indirect ← buffer aux2Buf
    readBlock g second indirect
    let r ← attempt (rem n g.ptrsPerBlock)
    let b ← attempt (u32At g (← load indirect) (4 * r))
    if b = 0 then return false
    readBlock g b h
    return true
  return false

def walkBlocks {σ : Type} (dir : Bytes) (clamp : Bool) (visit : σ → Bytes → Nat → Checked σ)
    (done : σ → Bool) : (fuel : Nat) → (left iblock : BitVec 32) → σ → Run B σ
  | 0, _, _, _ => attempt (.error .timeout)
  | fuel + 1, left, iblock, s => do
    if left = 0 ∨ done s = true then return s
    let buf ← buffer blockBuf
    if ← readInodeBlock g dir iblock buf then
      let s ← attempt (visit s (← load buf) left.toNat)
      if clamp = true ∧ left.toNat < g.blockSize then return s
      walkBlocks dir clamp visit done fuel (left - BitVec.ofNat 32 g.blockSize) (iblock + 1) s
    else return s

def lookup (dir : Bytes) (component : List (BitVec 8)) : Run B (Option (BitVec 32)) :=
  walkBlocks g dir false
    (fun s blk left => walk g blk left (visitName g blk component) g.blockSize 0 s)
    Option.isSome (blockFuel g) (size dir) 0 none

def enter (cur : BitVec 32) (component : List (BitVec 8)) : Run B (BitVec 32) := do
  attempt (check (component.length < maxFilename))
  if component = [] then return cur
  match ← readInode g cur with
  | none => return 0
  | some dir =>
    match ← lookup g dir component with
    | none => return 0
    | some ino => return ino

/-- The loop of `resolve_path` over the characters; `component` is what it has collected. -/
def resolveChars (cur : BitVec 32) (component : List (BitVec 8)) :
    List (BitVec 8) → Run B (BitVec 32)
  | [] => enter g cur component
  | c :: rest => do
    if c = slash then
      let ino ← enter g cur component
      if ino = 0 then return 0
      resolveChars ino [] rest
    else if maxFilename - 1 ≤ component.length then return 0
    else
      attempt (check (component.length < maxFilename))
      resolveChars cur (component ++ [c]) rest

def resolvePath (path : List (BitVec 8)) : Run B (BitVec 32) :=
  match path with
  | [] => return 0
  | c :: rest =>
    if c ≠ slash then return 0
    else if rest = [] then return rootIno
    else resolveChars g rootIno [] rest

def readdir (path : List (BitVec 8)) (maxEntries : BitVec 32) :
    Run B (Option (List Volume.Listed)) := do
  match ← readInode g (← resolvePath g path) with
  | none => return none
  | some inode =>
    if isDir inode then
      let max := maxEntries.toInt.toNat
      return some (← walkBlocks g inode false
        (fun s blk left => walk g blk left (visitListed g blk max) g.blockSize 0 s)
        (fun s => decide (max ≤ s.length)) (blockFuel g) (size inode) 0 [])
    else return none

/-- The loop of `ext2_read_file`; `total` bytes are in the caller's buffer of `maxlen`. -/
def readBlocks (inode : Bytes) (maxlen : Nat) : (fuel : Nat) → (iblock : BitVec 32) →
    (remaining total : Nat) → Run B (List (BitVec 8))
  | 0, _, _, _ => attempt (.error .timeout)
  | fuel + 1, iblock, remaining, total => do
    if remaining = 0 then return []
    let buf ← buffer blockBuf
    if ← readInodeBlock g inode iblock buf then
      let chunk := min remaining g.blockSize
      let bytes ← attempt (listAt g (← load buf) 0 chunk (maxlen - total))
      let rest ← readBlocks inode maxlen fuel (iblock + 1) (remaining - chunk) (total + chunk)
      return bytes ++ rest
    else return []

def readFile (path : List (BitVec 8)) (maxlen : BitVec 32) : Run B (Option (List (BitVec 8))) := do
  match ← readInode g (← resolvePath g path) with
  | none => return none
  | some inode =>
    if isReg inode then
      let remaining := min (size inode).toNat maxlen.toNat
      return some (← readBlocks g inode maxlen.toNat (blockFuel g) 0 remaining 0)
    else return none

/-! ### Allocation -/

def allocBlock : Run B (BitVec 32) := do
  let bgd ← readBlockGroupBgd g 0
  let buf ← buffer bitmapBuf
  readBlock g (Bgd.blockBitmap bgd) buf
  let n := min g.blocksPerGroup (g.blockSize * 8)
  let bitmap ← load buf
  match ← attempt (findFreeBit g bitmap n (n + 1) 0) with
  | none => return 0
  | some bit =>
    let b ← act fun v => (v.firstDataBlock + BitVec.ofNat 32 bit, v)
    if ← act fun v => (decide (v.totalBlocks ≤ b), v) then return 0
    attempt (check (bit / 8 < g.blockSize))
    store buf (Bitmap.set bitmap bit)
    writeBlock g (Bgd.blockBitmap bgd) buf
    let n := Bgd.freeBlocksCount bgd
    writeBgd g 0 (if 0 < n then bgd.set16 12 (n - 1) else bgd)
    act fun v => ((), if 0 < v.freeBlocks then v.setFreeBlocks (v.freeBlocks - 1) else v)
    store buf .zero
    writeBlock g b buf
    return b

def allocInode : Run B (BitVec 32) := do
  let bgd ← readBlockGroupBgd g 0
  let buf ← buffer blockBuf
  readBlock g (Bgd.inodeBitmap bgd) buf
  let n := min g.inodesPerGroup (g.blockSize * 8)
  let bitmap ← load buf
  match ← attempt (findFreeBit g bitmap n (n + 1) 0) with
  | none => return 0
  | some bit =>
    attempt (check (bit / 8 < g.blockSize))
    store buf (Bitmap.set bitmap bit)
    writeBlock g (Bgd.inodeBitmap bgd) buf
    let n := Bgd.freeInodesCount bgd
    writeBgd g 0 (if 0 < n then bgd.set16 14 (n - 1) else bgd)
    act fun v => ((), if 0 < v.freeInodes then v.setFreeInodes (v.freeInodes - 1) else v)
    return BitVec.ofNat 32 bit + 1

def freeBlock (b : BitVec 32) : Run B Unit := do
  let first ← act fun v => (v.firstDataBlock, v)
  let bit := (b - first).toNat
  if b < first ∨ g.blockSize * 8 ≤ bit then return ()
  let bgd ← readBlockGroupBgd g 0
  let buf ← buffer bitmapBuf
  readBlock g (Bgd.blockBitmap bgd) buf
  let bitmap ← load buf
  if ← attempt (testAt g bitmap bit) then
    store buf (Bitmap.clear bitmap bit)
    writeBlock g (Bgd.blockBitmap bgd) buf
    writeBgd g 0 (bgd.set16 12 (Bgd.freeBlocksCount bgd + 1))
    act fun v => ((), v.setFreeBlocks (v.freeBlocks + 1))

def freeInode (ino : BitVec 32) : Run B Unit := do
  if ino < rootIno then return ()
  let group ← attempt (div (ino.toNat - 1) g.inodesPerGroup)
  let index ← attempt (rem (ino.toNat - 1) g.inodesPerGroup)
  let bgd ← readBlockGroupBgd g group
  let buf ← buffer blockBuf
  readBlock g (Bgd.inodeBitmap bgd) buf
  let bitmap ← load buf
  if ← attempt (testAt g bitmap index) then
    store buf (Bitmap.clear bitmap index)
    writeBlock g (Bgd.inodeBitmap bgd) buf
    writeBgd g 0 (bgd.set16 14 (Bgd.freeInodesCount bgd + 1))
    act fun v => ((), v.setFreeInodes (v.freeInodes + 1))

/-- The blocks that are listed in a buffer, looked at again after each call. -/
def freeTable (h : B.Handle) : Run B Unit :=
  each (fun i => do
    let b ← attempt (u32At g (← load h) (4 * i))
    if b ≠ 0 then freeBlock g b) (List.range g.ptrsPerBlock)

def freeTables (h : B.Handle) : Run B Unit :=
  each (fun i => do
    let b ← attempt (u32At g (← load h) (4 * i))
    if b ≠ 0 then
      let table ← buffer auxBuf
      readBlock g b table
      freeTable g table
      freeBlock g b) (List.range g.ptrsPerBlock)

def freeDirect : List Nat → Bytes → Run B Bytes
  | [], inode => return inode
  | i :: rest, inode => do
    let b ← attempt (blockAt inode i)
    if b ≠ 0 then
      freeBlock g b
      freeDirect rest (← attempt (setBlockAt inode i 0))
    else freeDirect rest inode

def freeIndirect (inode : Bytes) : Run B Bytes := do
  let b ← attempt (blockAt inode 12)
  if b ≠ 0 then
    let buf ← buffer blockBuf
    readBlock g b buf
    freeTable g buf
    freeBlock g b
    attempt (setBlockAt inode 12 0)
  else return inode

def freeDoubleIndirect (inode : Bytes) : Run B Bytes := do
  let b ← attempt (blockAt inode 13)
  if b ≠ 0 then
    let buf ← buffer blockBuf
    readBlock g b buf
    freeTables g buf
    freeBlock g b
    attempt (setBlockAt inode 13 0)
  else return inode

def freeInodeBlocks (inode : Bytes) : Run B Bytes := do
  let inode ← freeDirect g (List.range 12) inode
  let inode ← freeIndirect g inode
  freeDoubleIndirect g inode

/-! ### Writing a file -/

def withIndirect (inode : Bytes) : Run B (Option Bytes) := do
  if (← attempt (blockAt inode 12)) = 0 then
    let b ← allocBlock g
    if b = 0 then return none
    return some (← attempt (setBlockAt inode 12 b))
  else return some inode

def blockFor (inode : Bytes) (iblock : Nat) : Run B (Option (Bytes × BitVec 32)) := do
  if iblock < 12 then
    let b ← attempt (blockAt inode iblock)
    if b = 0 then
      let b ← allocBlock g
      if b = 0 then return none
      return some (← attempt (setBlockAt inode iblock b), b)
    else return some (inode, b)
  else if iblock - 12 < g.ptrsPerBlock then
    match ← withIndirect g inode with
    | none => return none
    | some inode =>
      let table ← attempt (blockAt inode 12)
      let ibuf ← buffer auxBuf
      readBlock g table ibuf
      let b ← attempt (u32At g (← load ibuf) (4 * (iblock - 12)))
      if b = 0 then
        let b ← allocBlock g
        if b = 0 then return none
        store ibuf (← attempt (putAt g (← load ibuf) (4 * (iblock - 12)) 4 (.le b)))
        writeBlock g table ibuf
        return some (inode, b)
      else return some (inode, b)
  else return none

/-- The loop of `ext2_write_file`. The part that is written is staged before its block is
found; `len` is the length of the caller's buffer, of which `data` is left. -/
def writeBlocks (len : Nat) : (fuel : Nat) → (inode : Bytes) → (iblock : Nat) → List (BitVec 8) →
    Run B (Option Bytes)
  | 0, _, _, _ => attempt (.error .timeout)
  | fuel + 1, inode, iblock, data => do
    if data = [] then return some inode
    let chunk := min data.length g.blockSize
    attempt (check (len - data.length + chunk ≤ len))
    let buf ← buffer blockBuf
    store buf (← attempt (putAt g .zero 0 chunk (.ofList data)))
    match ← blockFor g inode iblock with
    | none => return none
    | some (inode, b) =>
      writeBlock g b buf
      writeBlocks len fuel inode (iblock + 1) (data.drop g.blockSize)

def writeContents (ino : BitVec 32) (data : List (BitVec 8)) (now : BitVec 32) :
    Run B (Option (BitVec 32)) := do
  match ← readInode g ino with
  | none => return none
  | some inode =>
    if isReg inode then
      match ← writeBlocks g data.length (data.length + 1) inode 0 data with
      | none => return none
      | some inode =>
        let len := BitVec.ofNat 32 data.length
        discard (writeInode g ino (written g inode len now))
        syncSuperblock g
        return some len
    else return none

/-! ### Directory entries -/

def splitParentChild (path : List (BitVec 8)) :
    Checked (Option (List (BitVec 8) × List (BitVec 8))) := do
  if path.head? ≠ some slash then return none
  let child := (path.reverse.takeWhile (· != slash)).reverse
  let lastSlash := path.length - child.length - 1
  if child = [] ∨ maxFilename ≤ child.length then return none
  check (child.length < maxFilename)
  if lastSlash = 0 then return some ([slash], child)
  if maxPath ≤ lastSlash then return none
  check (lastSlash < maxPath)
  return some (path.take lastSlash, child)

/-- The loop of `add_dirent_to_parent` over the direct blocks; `none` if it has found space. -/
def addToBlocks (parent : Bytes) (name : List (BitVec 8)) (ino : BitVec 32) (fileType : BitVec 8)
    (buf : B.Handle) : (fuel iblock : Nat) → Run B (Option Nat)
  | 0, _ => attempt (.error .timeout)
  | fuel + 1, iblock => do
    if iblock < 12 ∧ iblock * g.blockSize < (size parent).toNat then
      let b ← attempt (blockAt parent iblock)
      if b = 0 then return some iblock
      readBlock g b buf
      let blk ← load buf
      match ← attempt (walk g blk g.blockSize (visitRoom g blk name ino fileType) g.blockSize 0
          none) with
      | some blk =>
        store buf blk
        writeBlock g b buf
        return none
      | none => addToBlocks parent name ino fileType buf fuel (iblock + 1)
    else return some iblock

def addDirentToParent (parentIno : BitVec 32) (name : List (BitVec 8)) (ino : BitVec 32)
    (fileType : BitVec 8) : Run B Bool := do
  match ← readInode g parentIno with
  | none => return false
  | some parent =>
    if !isDir parent then return false
    if name.length = 0 ∨ maxFilename ≤ name.length then return false
    let buf ← buffer blockBuf
    match ← addToBlocks g parent name ino fileType buf 13 0 with
    | none =>
      discard (writeInode g parentIno parent)
      return true
    | some iblock =>
      if 12 ≤ iblock then return false
      let b ← allocBlock g
      if b = 0 then return false
      attempt (check (direntHdr + name.length ≤ g.blockSize))
      store buf (newDirBlock g name ino fileType)
      writeBlock g b buf
      let parent ← attempt (setBlockAt parent iblock b)
      let size := size parent + BitVec.ofNat 32 g.blockSize
      discard (writeInode g parentIno (setSize parent size))
      return true

/-! ### Creating -/

def createFile (path : List (BitVec 8)) (now : BitVec 32) : Run B Bool := do
  if (← resolvePath g path) ≠ 0 then return false
  match ← attempt (splitParentChild path) with
  | none => return false
  | some (parentPath, filename) =>
    let parentIno ← resolvePath g parentPath
    if parentIno = 0 then return false
    let ino ← allocInode g
    if ino = 0 then return false
    if ← writeInode g ino (newFile now) then
      if ← addDirentToParent g parentIno filename ino ftRegFile then
        syncSuperblock g
        return true
      else
        freeInode g ino
        return false
    else
      freeInode g ino
      return false

def writeFile (path data : List (BitVec 8)) (created now : BitVec 32) :
    Run B (Option (BitVec 32)) := do
  let ino ← resolvePath g path
  if ino ≠ 0 then writeContents g ino data now
  else
    if ← createFile g path created then
      let ino ← resolvePath g path
      if ino = 0 then return none
      writeContents g ino data now
    else return none

def addLink (ino : BitVec 32) : Run B Unit := do
  match ← readInode g ino with
  | none => return ()
  | some inode =>
    discard (writeInode g ino (setLinksCount inode (linksCount inode + 1)))

def mkdir (path : List (BitVec 8)) (now : BitVec 32) : Run B Bool := do
  if (← resolvePath g path) ≠ 0 then return false
  match ← attempt (splitParentChild path) with
  | none => return false
  | some (parentPath, dirname) =>
    let parentIno ← resolvePath g parentPath
    if parentIno = 0 then return false
    let ino ← allocInode g
    if ino = 0 then return false
    let first ← allocBlock g
    if first = 0 then
      freeInode g ino
      return false
    let inode := newDir g first now
    let buf ← buffer blockBuf
    attempt (check (22 ≤ g.blockSize))
    store buf (dotBlock g ino parentIno)
    writeBlock g first buf
    if ← writeInode g ino inode then
      if ← addDirentToParent g parentIno dirname ino ftDir then
        addLink g parentIno
        bgdAdjustDirCount g true
        syncSuperblock g
        return true
      else
        discard (freeInodeBlocks g inode)
        freeInode g ino
        return false
    else
      freeBlock g first
      freeInode g ino
      return false

/-! ### Unlinking -/

def occupied (dir : Bytes) : Run B Bool :=
  walkBlocks g dir true
    (fun s blk left => walk g blk left (visitOther g blk) g.blockSize 0 s) id (blockFuel g)
    (size dir) 0 false

/-- A directory that is not empty cannot be unlinked. -/
def isFull (inode : Bytes) : Run B Bool := if isDir inode then occupied g inode else pure false

/-- The loop of `ext2_unlink` over the direct blocks of the parent: was the entry removed? -/
def removeFromBlocks (parent : Bytes) (child : List (BitVec 8)) :
    (fuel : Nat) → (left : BitVec 32) → (iblock : Nat) → Run B Bool
  | 0, _, _ => attempt (.error .timeout)
  | fuel + 1, left, iblock => do
    if left = 0 ∨ 12 ≤ iblock then return false
    let b ← attempt (blockAt parent iblock)
    if b = 0 then return false
    let buf ← buffer blockBuf
    if ← readInodeBlock g parent (BitVec.ofNat 32 iblock) buf then
      let blk ← load buf
      match ← attempt (walk g blk left.toNat (visitChild g blk child) g.blockSize 0 none) with
      | some off =>
        store buf (← attempt (putAt g blk off 4 (.le (0 : BitVec 32))))
        writeBlock g b buf
        return true
      | none =>
        if left.toNat < g.blockSize then return false
        removeFromBlocks parent child fuel (left - BitVec.ofNat 32 g.blockSize) (iblock + 1)
    else return false

def dropLink (ino : BitVec 32) (inode : Bytes) (now : BitVec 32) : Run B Unit := do
  if 0 < linksCount inode then
    let inode := setLinksCount inode (linksCount inode - 1)
    if linksCount inode = 0 then
      let inode ← freeInodeBlocks g inode
      discard (writeInode g ino (setSize (setDtime inode now) 0))
      freeInode g ino
    else discard (writeInode g ino inode)

def unlinked (ino : BitVec 32) (inode : Bytes) (parentIno : BitVec 32) (parent : Bytes)
    (now : BitVec 32) : Run B Unit := do
  let parent := if isDir inode then
      setLinksCount parent (linksCount parent - 1)
    else parent
  dropLink g ino inode now
  discard (writeInode g parentIno parent)
  if isDir inode then bgdAdjustDirCount g false
  syncSuperblock g

def unlink (path : List (BitVec 8)) (now : BitVec 32) : Run B Bool := do
  let ino ← resolvePath g path
  if ino < rootIno then return false
  match ← readInode g ino with
  | none => return false
  | some inode =>
    if ← isFull g inode then return false
    match ← attempt (splitParentChild path) with
    | none => return false
    | some (parentPath, child) =>
      let parentIno ← resolvePath g parentPath
      match ← readInode g parentIno with
      | none => return false
      | some parent =>
        if ← removeFromBlocks g parent child 13 (size parent) 0 then
          unlinked g ino inode parentIno parent now
          return true
        else return false

/-! ### Calls -/

def call : Call → Run B Reply
  | .resolve path => return .ino (← resolvePath g path)
  | .readFile path maxlen => return .contents (← readFile g path maxlen)
  | .readdir path maxEntries => return .listing (← readdir g path maxEntries)
  | .createFile path now => return .done (← createFile g path now)
  | .writeFile path data created now => return .length (← writeFile g path data created now)
  | .mkdir path now => return .done (← mkdir g path now)
  | .unlink path now => return .done (← unlink g path now)

def calls : List Call → Run B (List Reply)
  | [] => return []
  | c :: rest => do
    let reply ← call g c
    let replies ← calls rest
    return reply :: replies

end Nyx.Ext2.Driver
