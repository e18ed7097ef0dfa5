import Nyx.Paging.Access

/-! Executables and libraries: `kernel/elf.c` and `kernel/shared_libc.c`.

A file is the bytes in memory from its start on, and its size; what lies past the size is
whatever the kernel holds there. -/
namespace Nyx.Paging
open Process (userSpaceMin userSpaceEnd)
open Process.Kernel (pageFloor roundUp)
open Lib

structure ElfFile where
  data : Nat → BitVec 8
  size : BitVec 32

namespace ElfFile

variable (f : ElfFile)

def u16 (o : Nat) : BitVec 16 := f.data (o + 1) ++ f.data o
def u32 (o : Nat) : BitVec 32 := f.u16 (o + 2) ++ f.u16 o
def u64 (o : Nat) : BitVec 64 := f.u32 (o + 4) ++ f.u32 o

/-! ### `elf64_hdr_t` -/

def headerSize : Nat := 64
def eIdent (i : Nat) : BitVec 8 := f.data i
def eType : BitVec 16 := f.u16 16
def eMachine : BitVec 16 := f.u16 18
def eEntry : BitVec 64 := f.u64 24
def ePhoff : BitVec 64 := f.u64 32
def ePhentsize : BitVec 16 := f.u16 54
def ePhnum : BitVec 16 := f.u16 56

def elfMagic : BitVec 32 := 0x464C457F#32

def validate : Bool :=
  headerSize ≤ f.size.toNat && f.u32 0 == elfMagic && f.eIdent 4 == 2#8 && f.eIdent 5 == 1#8 &&
    f.eMachine == 62#16 && f.eType == 2#16 && f.ePhnum != 0#16

end ElfFile

/-! ### `elf64_phdr_t` -/

structure Phdr where
  type : BitVec 32
  flags : BitVec 32
  offset : BitVec 64
  vaddr : BitVec 64
  filesz : BitVec 64
  memsz : BitVec 64
deriving DecidableEq, Repr

def phdrSize : Nat := 56
def ptLoad : BitVec 32 := 1#32
def pfX : BitVec 32 := 1#32
def pfW : BitVec 32 := 2#32

namespace Phdr

variable (ph : Phdr)

def writable : Bool := ph.flags &&& pfW != 0#32
def exec : Bool := ph.flags &&& pfX != 0#32

def inFile (size : BitVec 32) : Bool :=
  ph.offset ≤ size.setWidth 64 && ph.filesz ≤ size.setWidth 64 - ph.offset

def inUserSpace : Bool :=
  ph.memsz ≤ userSpaceEnd && userSpaceMin ≤ ph.vaddr && ph.vaddr ≤ userSpaceEnd - ph.memsz

def startPage : BitVec 64 := pageFloor ph.vaddr
def endPage : BitVec 64 := roundUp (ph.vaddr + ph.memsz)

/-- The file's part of a page: `[copy_start, copy_end)`. -/
def copyStart (page : BitVec 64) : BitVec 64 := if ph.vaddr < page then page else ph.vaddr
def copyEnd (page : BitVec 64) : BitVec 64 :=
  if page + 0x1000#64 < ph.vaddr + ph.filesz then page + 0x1000#64 else ph.vaddr + ph.filesz

end Phdr

namespace ElfFile

variable (f : ElfFile)

def phdr (i : Nat) : Phdr :=
  let o := f.ePhoff.toNat + i * phdrSize
  ⟨f.u32 o, f.u32 (o + 4), f.u64 (o + 8), f.u64 (o + 16), f.u64 (o + 32), f.u64 (o + 40)⟩

def phdrs : List Phdr := (List.range f.ePhnum.toNat).map f.phdr

def loads : List Phdr := f.phdrs.filter (·.type == ptLoad)

/-- `elf_validate` and the bounds on the program-header table. -/
def wellFormed : Bool :=
  f.validate && f.ePhentsize.toNat == phdrSize && f.ePhoff ≤ f.size.setWidth 64 &&
    f.ePhnum.toNat * phdrSize ≤ f.size.toNat - f.ePhoff.toNat

end ElfFile

namespace Machine

/-- `n` bytes of a frame from `off` on. -/
def copyIn (m : Machine) (p : Ptr) (off n : Nat) (src : Nat → BitVec 8) : Machine :=
  m.setBytes p fun o =>
    if off ≤ o.toNat ∧ o.toNat < off + n then src (o.toNat - off) else m.byte p o

def copySegment (m : Machine) (f : ElfFile) (ph : Phdr) (page : BitVec 64) (p : Ptr) : Machine :=
  let cs := ph.copyStart page
  let ce := ph.copyEnd page
  if cs < ce then
    m.copyIn p (cs - page).toNat (ce - cs).toNat fun n =>
      f.data ((ph.offset + (cs - ph.vaddr)).toNat + n)
  else m

end Machine

/-! ### Libraries -/

def maxSegPages : Nat := 32
def maxSegs : Nat := 8
def maxDynlibs : Nat := 4

/-- The pages of a library segment; their number is cut to 32 bits, then to `MAX_SEG_PAGES`. -/
def Phdr.segPages (ph : Phdr) : List (BitVec 64) :=
  let np := (ph.endPage - ph.startPage).toNat / Memory.pageSize % 2 ^ 32
  (List.range (min np maxSegPages)).map fun n =>
    ph.startPage + BitVec.ofNat 64 (n * Memory.pageSize)

/-- A `libseg_t`; `npages` is the number of master frames. -/
structure Libseg where
  vaddr : BitVec 64
  writable : Bool
  exec : Bool
  frames : List Ptr
deriving DecidableEq, Repr

namespace Machine

def loadMaster (f : ElfFile) (ph : Phdr) (m : Machine) (page : BitVec 64) : Machine × Option Ptr :=
  let (m, frame) := m.allocPage
  if frame = 0#64 then (m, none)
  else (((m.pagePin frame).zeroPage frame).copySegment f ph page frame, some frame)

/-- The master frames of one segment. The frames taken so far come back with a failure too. -/
def loadMasters (f : ElfFile) (ph : Phdr) : List (BitVec 64) → Machine → List Ptr →
    Machine × List Ptr × Bool
  | [], m, taken => (m, taken, true)
  | page :: rest, m, taken =>
    match m.loadMaster f ph page with
    | (m, none) => (m, taken, false)
    | (m, some frame) => loadMasters f ph rest m (taken ++ [frame])

/-- The loop of `libseg_load`; `none` is its `-1`, with the frames it leaves pinned counted. -/
def loadSegs (f : ElfFile) : List Phdr → Machine → List Libseg → Machine × Option (List Libseg)
  | [], m, segs => (m, some segs)
  | ph :: rest, m, segs =>
    let lost := (segs.map (·.frames.length)).sum
    if segs.length ≥ maxSegs then (m, some segs)
    else if ph.memsz < ph.filesz ∨ ¬ ph.inFile f.size ∨ ¬ ph.inUserSpace then
      ({m with events := m.events.orphan lost}, none)
    else
      match m.loadMasters f ph ph.segPages [] with
      | (m, taken, true) =>
        loadSegs f rest m (segs ++ [⟨ph.startPage, ph.writable, ph.exec, taken⟩])
      | (m, taken, false) => ({m with events := m.events.orphan (lost + taken.length)}, none)

def libsegLoad (m : Machine) (f : ElfFile) : Machine × Option (List Libseg) :=
  if f.wellFormed then m.loadSegs f f.loads [] else (m, none)

/-- One page of `libseg_map`: a private copy of a writable page, the master itself otherwise. -/
def mapMaster (pml4 : Ptr) (s : Libseg) (m : Machine) (page : BitVec 64 × Ptr) : Machine × Bool :=
  let (va, master) := page
  if s.writable then
    let (m, fresh) := m.allocPage
    if fresh = 0#64 then (m, false)
    else ((m.fill fresh (m.word master)).mapPageDir pml4 fresh va (0x7#64 ||| pageNx), true)
  else ((m.mapPageRo pml4 master va s.exec).pageIncref master, true)

end Machine

def Libseg.placed (s : Libseg) : List (BitVec 64 × Ptr) :=
  s.frames.zipIdx.map fun (frame, n) => (s.vaddr + BitVec.ofNat 64 (n * Memory.pageSize), frame)

namespace Machine

variable (m : Machine) (pd : Ptr)

/-- `libseg_map`, which gives up silently when it runs out of memory. -/
def libsegMap (pml4 : Ptr) (segs : List Libseg) : Machine :=
  (forEach (fun m s => forEach (mapMaster pml4 s) s.placed m) segs m).1

/-! ### `elf_load_image` -/

structure Loaded where
  pd : Ptr
  entry : BitVec 64
  stackTop : BitVec 64
  brk : BitVec 64

/-- The `n`-th stack page from the top. It is not cleared. -/
def loadStackPage (m : Machine) (n : Nat) : Machine × Bool :=
  let (m, pg) := m.allocPage
  if pg = 0#64 then (m, false)
  else
    (m.mapPageDir pd pg (userStackTop - BitVec.ofNat 64 (n * Memory.pageSize))
      (0x7#64 ||| pageNx), true)

/-- The stack pages committed at load. The top one gets an empty entry frame: `argc`, the
argv and envp terminators and padding. -/
def loadStack : Machine × Bool :=
  let (m, stackPhys) := m.allocPage
  if stackPhys = 0#64 then (m, false)
  else
    let m := m.mapPageDir pd stackPhys userStackTop (0x7#64 ||| pageNx)
    match forEach (loadStackPage pd) (List.range' 1 (userStackInitPages - 1)) m with
    | (m, false) => (m, false)
    | (m, true) => (m.copyIn stackPhys (4096 - 32) 32 fun _ => 0#8, true)

variable (f : ElfFile)

def loadSegmentPage (ph : Phdr) (m : Machine) (page : BitVec 64) : Machine × Bool :=
  let (m, phys) := m.allocPage
  if phys = 0#64 then (m, false)
  else
    let flags := (if ph.writable then 0x7#64 else 0x5#64) ||| (if ph.exec then 0#64 else pageNx)
    let m := m.mapPageDir pd phys page flags
    let m := m.copySegment f ph page phys
    let pageEnd := page + 0x1000#64
    let dataEnd := ph.vaddr + ph.filesz
    let memEnd := ph.vaddr + ph.memsz
    if dataEnd < pageEnd ∧ page < memEnd then
      let zeroStart := if page < dataEnd then (dataEnd - page).toNat else 0
      let zeroEnd := if memEnd < pageEnd then (memEnd - page).toNat else 4096
      (if zeroStart < zeroEnd then m.copyIn phys zeroStart (zeroEnd - zeroStart) fun _ => 0#8
       else m, true)
    else (m, true)

def elfMaxSegment : BitVec 64 := 0x10000000#64

def loadSegment (m : Machine) (ph : Phdr) : Machine × Bool :=
  if ph.inFile f.size && ph.inUserSpace && ph.memsz ≤ elfMaxSegment then
    forEach (loadSegmentPage pd f ph) (pages ph.startPage ph.endPage) m
  else (m, false)

/-- The stack, the entry point and the segments, into a fresh page directory. -/
def loadImage : Machine × Bool :=
  match m.loadStack pd with
  | (m, false) => (m, false)
  | (m, true) =>
    if userSpaceMin ≤ f.eEntry ∧ f.eEntry < userSpaceEnd then
      forEach (loadSegment pd f) f.loads m
    else (m, false)

def imageEnd : BitVec 64 :=
  f.loads.foldl (fun top ph => if top < ph.vaddr + ph.memsz then ph.vaddr + ph.memsz else top) 0#64

/-- `elf_load_image`; `libc` is the shared libc once it is ready. -/
def elfLoadImage (libc : Option (List Libseg)) (f : ElfFile) : Machine × Option Loaded :=
  if !f.wellFormed then (m, none)
  else
    let (m, pd) := m.allocPageDirectory
    if pd = 0#64 then (m, none)
    else
      match m.loadImage pd f with
      | (m, false) => (m.freePageDirectory pd, none)
      | (m, true) =>
        (m.libsegMap pd (libc.getD []),
          some ⟨pd, f.eEntry, userStackTop + 4096#64 - 32#64, roundUp (imageEnd f)⟩)

/-! ### The entry frame -/

/-- A string goes below the stack pointer; the pointer moves down to it. -/
def pushString (st : Machine × BitVec 64 × List (BitVec 64)) (s : List (BitVec 8)) :
    Machine × BitVec 64 × List (BitVec 64) :=
  let sp := st.2.1 - BitVec.ofNat 64 (s.length + 1)
  ((st.1.copyToUser pd sp (s ++ [0#8])).1, sp, sp :: st.2.2)

/-- The bytes of a `uint64_t` array. -/
def wordBytes (ws : List (BitVec 64)) : List (BitVec 8) :=
  ws.flatMap fun w => (List.range 8).map fun b => byteOf w (BitVec.ofNat 3 b)

/-- The argv and envp frame `do_execve` builds at the top of a new stack: the strings, the
last one highest, then `argc`, the argv pointers and the envp pointers. -/
def entryFrame (stackTop : BitVec 64) (argv envp : List (List (BitVec 8))) : Machine × BitVec 64 :=
  let (m, sp, uargv) := argv.reverse.foldl (pushString pd) (m, roundUp stackTop, [])
  let (m, sp, uenvp) := envp.reverse.foldl (pushString pd) (m, sp, [])
  let qwords := 1 + (argv.length + 1) + (envp.length + 1)
  let sp := (sp &&& ~~~0xF#64) - BitVec.ofNat 64 ((qwords + qwords % 2) * 8)
  let argc := BitVec.ofNat 64 argv.length
  let (m, _) := m.copyToUser pd sp (wordBytes [argc])
  let (m, _) := m.copyToUser pd (sp + 8#64) (wordBytes (uargv ++ [0#64]))
  let (m, _) := m.copyToUser pd (sp + 8#64 + BitVec.ofNat 64 ((argv.length + 1) * 8))
    (wordBytes (uenvp ++ [0#64]))
  (m, sp)

/-- The arguments `do_execve` keeps. -/
def execArgs (argv : List (List (BitVec 8))) : List (List (BitVec 8)) := argv.take 32
def execEnv (envp : List (List (BitVec 8))) : List (List (BitVec 8)) := envp.take 16

/-- `build_argv_stack`: an empty environment, and nothing at all without arguments. -/
def buildArgvStack (stackTop : BitVec 64) (argv : List (List (BitVec 8))) : Machine × BitVec 64 :=
  if argv = [] then (m, stackTop) else m.entryFrame pd stackTop (execArgs argv) []

end Machine

end Nyx.Paging
