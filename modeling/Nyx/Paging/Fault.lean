import Nyx.Process.Regions
import Nyx.Paging.Tables

/-! Page faults and the regions they are served from (`vm_handle_fault` in `paging.c`,
`mmap.c`, `SYS_SBRK`).

A `Space` is what the kernel keeps for one address space beside its page tables: the lazy
heap window and the mmap table, which the threads of a group share through their leader.
Only faults from ring 3 are modelled; those of the kernel belong to the `cowtest` self-test. -/
namespace Nyx.Paging
open Process (userSpaceMin userSpaceEnd procMaxVmas)
open Process.Kernel (mmapBase mmapMax roundUp pageFloor userRange)

def protWrite : BitVec 32 := 2#32
def protExec : BitVec 32 := 4#32

def userStackTop : BitVec 64 := 0x00007FFFFFFFE000#64
def userStackInitPages : Nat := 4
def userStackMaxPages : Nat := 128
def userStackLow : BitVec 64 :=
  userStackTop - BitVec.ofNat 64 ((userStackMaxPages - 1) * Memory.pageSize)
def sharedLibcBase : BitVec 64 := 0x30000000#64

/-- A `vma_t`. `file` is what its `file_buf` holds, nothing for an anonymous region. -/
structure Region where
  start : BitVec 64
  stop : BitVec 64
  prot : BitVec 32
  used : Bool
  file : List (BitVec 8)
deriving DecidableEq, Repr

def Region.zero : Region := ⟨0, 0, 0, false, []⟩

structure Space where
  heapStart : BitVec 64
  programBreak : BitVec 64
  vmas : Fin procMaxVmas → Region
  mmapNext : BitVec 64

namespace Space

/-- A fresh image: no regions, and an empty heap window at the end of the image. -/
def image (brk : BitVec 64) : Space := ⟨brk, brk, fun _ => .zero, 0⟩

variable (sp : Space)

def vmaFind (addr : BitVec 64) : Option Region :=
  ((List.finRange procMaxVmas).map sp.vmas).find? fun v =>
    v.used && v.start ≤ addr && addr < v.stop

/-- `SYS_SBRK`: only the break moves. -/
def sbrk (inc : BitVec 64) : Space :=
  if inc.slt 0#64 then
    {sp with programBreak :=
      if sp.programBreak - sp.heapStart < -inc then sp.heapStart else sp.programBreak - -inc}
  else if sharedLibcBase < sp.programBreak + inc then sp
  else {sp with programBreak := sp.programBreak + inc}

/-- `do_mmap`. The file's bytes from the requested offset on are `snapshot`: none for an
anonymous mapping, `none` when the buffer cannot be allocated or read. -/
def doMmap (length : BitVec 64) (prot : BitVec 32) (snapshot : Option (List (BitVec 8))) :
    Space := if length = 0#64 then sp
  else
    let length := roundUp length
    let base := if sp.mmapNext < mmapBase then mmapBase else sp.mmapNext
    let sp := {sp with mmapNext := base}
    match (List.finRange procMaxVmas).find? fun i => !(sp.vmas i).used with
    | none => sp
    | some slot =>
      if mmapMax < base + length ∨ base + length < base then sp
      else
        match snapshot with
        | none => sp
        | some file =>
          { sp with
            mmapNext := base + length
            vmas := Function.update sp.vmas slot ⟨base, base + length, prot, true, file⟩ }

end Space

/-! ### The fault handler -/

/-- The bytes a fresh page of a region starts with: its slice of the file, then zeros. -/
def Region.pageByte (v : Region) (cr2 : BitVec 64) (o : BitVec 12) : BitVec 8 :=
  v.file.getD ((pageFloor cr2 - v.start).toNat + o.toNat) 0#8

/-- The permission bits of a region's pages. -/
def protFlags (prot : BitVec 32) : BitVec 64 :=
  pagePresent ||| pageUser ||| (if prot &&& protWrite != 0#32 then pageWritable else 0#64) |||
    (if prot &&& protExec != 0#32 then 0#64 else pageNx)

namespace Machine

variable (m : Machine) (pml4 : Ptr)

def zeroPage (p : Ptr) : Machine := m.fill p fun _ => 0#64

/-- A zeroed page mapped through `map_page_dir`, for the heap and the stack. -/
def demandZero (cr2 : BitVec 64) : Machine × Bool :=
  let (m, page) := m.allocPage
  if page = 0#64 then (m, false)
  else
    ((m.zeroPage page).mapPageDir pml4 page (pageFloor cr2) (0x7#64 ||| pageNx), true)

def demandRegion (v : Region) (cr2 : BitVec 64) : Machine × Bool :=
  match m.ptePtr pml4 cr2 true with
  | (m, none) => (m, false)
  | (m, some (pt, i)) =>
    let (m, page) := m.allocPage
    if page = 0#64 then (m, false)
    else
      let m := m.zeroPage page
      let m := if v.file = [] then m else m.setBytes page (v.pageByte cr2)
      (m.setLeaf pt i (frameOf page ||| protFlags v.prot), true)

/-- A write to a copy-on-write page: the sole owner gets it back writable, any other a copy. -/
def copyOnWrite (pt : Ptr) (i : BitVec 9) : Machine × Bool :=
  let e := m.word pt i
  let old := frameOf e
  let kept := e &&& pageUser ||| e &&& pageNx
  if m.pageGetRefcount old ≤ 1#8 then
    (m.store pt i (old ||| pagePresent ||| pageWritable ||| kept), true)
  else
    let (m, newp) := m.allocPage
    if newp = 0#64 then (m, false)
    else
      (((m.fill newp (m.word old)).freePage old).store pt i
        (frameOf newp ||| pagePresent ||| pageWritable ||| kept), true)

/-- `vm_handle_fault` for a fault from ring 3. Bit 0 of `err` is set when the page was
present, bit 1 when the access was a write. The result says whether to retry. -/
def vmHandleFault (sp : Space) (cr2 err : BitVec 64) : Machine × Bool :=
  let absent := !has err 1#64
  if absent && (userSpaceMin ≤ sp.heapStart && sp.heapStart < sp.programBreak &&
      sp.heapStart ≤ cr2 && cr2 < sp.programBreak) then
    m.demandZero pml4 cr2
  else
    match if absent then sp.vmaFind cr2 else none with
    | some v => m.demandRegion pml4 v cr2
    | none =>
      if absent && (userStackLow ≤ cr2 && cr2 < userStackTop + 0x1000#64) then
        m.demandZero pml4 cr2
      else if userStackLow - 0x1000#64 ≤ cr2 ∧ cr2 < userStackLow then (m, false)
      else
        match m.ptePtr pml4 cr2 false with
        | (m, none) => (m, false)
        | (m, some (pt, i)) =>
          let e := m.word pt i
          if absent && has e pteDemand then
            let (m, page) := m.allocPage
            if page = 0#64 then (m, false)
            else
              ((m.zeroPage page).store pt i (frameOf page ||| pagePresent ||| pageWritable |||
                e &&& pageUser ||| e &&& pageNx), true)
          else if !absent && has err 2#64 && has e pagePresent && has e pteCow then
            m.copyOnWrite pt i
          else (m, false)

end Machine

/-! ### Ranges of pages -/

/-- `va = start; va < stop; va += PAGE_SIZE`, for a page-aligned range. -/
def pages (start stop : BitVec 64) : List (BitVec 64) :=
  (List.range ((stop.toNat - start.toNat) / Memory.pageSize)).map fun n =>
    start + BitVec.ofNat 64 (n * Memory.pageSize)

namespace Machine

/-- The body of `vm_free_range`. -/
def freeLeaf (pml4 : Ptr) (m : Machine) (va : BitVec 64) : Machine :=
  match (m.ptePtr pml4 va false).2 with
  | none => m
  | some (pt, i) =>
    let e := m.word pt i
    if has e pagePresent then (m.freePage (frameOf e)).store pt i 0#64 else m

def vmFreeRange (m : Machine) (pml4 : Ptr) (start stop : BitVec 64) : Machine :=
  if pml4 = 0#64 then m else (pages start stop).foldl (freeLeaf pml4) m

end Machine

/-- The entry `vm_protect_range` writes over `e`: the frame and the markers stay, and a
copy-on-write page is not made writable. -/
def protectEntry (prot : BitVec 32) (e : BitVec 64) : BitVec 64 :=
  let f := protFlags prot
  let f := if has e pteCow then f &&& ~~~pageWritable ||| pteCow else f
  let f := if has e pteDemand then f ||| pteDemand else f
  frameOf e ||| f

namespace Machine

/-- The body of `vm_protect_range`. -/
def protectLeaf (pml4 : Ptr) (prot : BitVec 32) (m : Machine) (va : BitVec 64) : Machine :=
  match (m.ptePtr pml4 va false).2 with
  | none => m
  | some (pt, i) =>
    let e := m.word pt i
    if has e pagePresent then m.store pt i (protectEntry prot e) else m

def vmProtectRange (m : Machine) (pml4 : Ptr) (start stop : BitVec 64) (prot : BitVec 32) :
    Machine := if pml4 = 0#64 then m else (pages start stop).foldl (protectLeaf pml4 prot) m

end Machine

/-! ### The two calls that change regions and pages together -/

/-- `do_mprotect`. -/
def doMprotect (m : Machine) (pml4 : Ptr) (sp : Space) (addr length : BitVec 64)
    (prot : BitVec 32) : Machine × Space :=
  let start := pageFloor addr
  let stop := start + roundUp length
  if length = 0#64 ∨ ¬ userRange start stop then (m, sp)
  else
    (m.vmProtectRange pml4 start stop prot, {sp with vmas := fun i =>
        let v := sp.vmas i
        if v.used = true ∧ v.start < stop ∧ start < v.stop then {v with prot := prot} else v})

/-- `do_munmap`. -/
def doMunmap (m : Machine) (pml4 : Ptr) (sp : Space) (addr length : BitVec 64) : Machine × Space :=
  let start := pageFloor addr
  let stop := start + roundUp length
  if length = 0#64 ∨ ¬ userRange start stop then (m, sp)
  else
    (m.vmFreeRange pml4 start stop, {sp with vmas := fun i =>
        let v := sp.vmas i
        if v.used = true ∧ start ≤ v.start ∧ v.stop ≤ stop then {v with used := false, file := []}
        else v})

end Nyx.Paging
