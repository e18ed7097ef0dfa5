import Nyx.Lib.Loop
import Nyx.Paging.Machine

/-! Page tables (`kernel/paging.c`): the walker, the two mapping calls, and a page
directory's life from `alloc_page_directory` over `clone_page_directory_cow` to
`free_page_directory`. -/
namespace Nyx.Paging
open Lib

/-- `(virt >> shift) & 0x1FF`. -/
def index (virt : BitVec 64) (shift : Nat) : BitVec 9 := virt.extractLsb' shift 9

/-- `0, 1, …, n - 1`. -/
def indices (n : Nat) : List (BitVec 9) := (List.range n).map (BitVec.ofNat 9)

/-- `PML4_HIGHER`, the entry every address space shares with the kernel. -/
def pml4Higher : Nat := 511

def link (table : Ptr) : BitVec 64 := table ||| pagePresent ||| pageWritable ||| pageUser

namespace Machine

/-! ### Walking -/

variable (m : Machine)

/-- One level of `pte_ptr`. -/
def descend (create : Bool) (tbl : Ptr) (i : BitVec 9) : Machine × Option Ptr :=
  let e := m.word tbl i
  if has e pageHuge then (m, none)
  else if has e pagePresent then (m, some (e &&& ~~~0xFFF#64))
  else if create then
    let (m, nt) := m.allocPage
    if nt = 0#64 then (m, none)
    else ((m.fill nt fun _ => 0#64).store tbl i (link nt), some nt)
  else (m, none)

def walk (step : Machine → Ptr → BitVec 9 → Machine × Option Ptr) :
    List (BitVec 9) → Machine → Ptr → Machine × Option Ptr
  | [], m, tbl => (m, some tbl)
  | i :: rest, m, tbl =>
    match step m tbl i with
    | (m, some next) => walk step rest m next
    | (m, none) => (m, none)

/-- The slot of the leaf entry for `virt`: its table and its index in it. -/
def ptePtr (pml4 : Ptr) (virt : BitVec 64) (create : Bool) : Machine × Option (Ptr × BitVec 9) :=
  let (m, pt) := walk (descend · create) [index virt 39, index virt 30, index virt 21] m pml4
  (m, pt.map fun t => (t, index virt 12))

/-! ### Mapping -/

/-- `pt_next`: a table entry with reserved bits set is a kernel panic. -/
def ptNext (e : BitVec 64) : Machine × Ptr :=
  ({m with events := m.events.panic (has e 0xFFF0000000000000#64)}, frameOf e)

/-- One level of `map_pml4`. -/
def mapLevel (flags : BitVec 64) (tbl : Ptr) (i : BitVec 9) : Machine × Option Ptr :=
  let e := m.word tbl i
  if has e pagePresent then
    let (m, next) := m.ptNext e
    (m, some next)
  else
    let (m, nt) := m.allocPage
    if nt = 0#64 then (m, none)
    else
      ((m.fill nt fun _ => 0#64).store tbl i
        (nt ||| pagePresent ||| pageWritable ||| (flags &&& pageUser)), some nt)

def setLeaf (pt : Ptr) (i : BitVec 9) (e : BitVec 64) : Machine :=
  let old := m.word pt i
  { m.store pt i e with
    events := m.events.replace (has old pagePresent && !m.pinned (frameOf old)) }

/-- `map_pml4`. It returns nothing when it runs out of memory for a table, and every leaf
it writes is writable, whatever the flags say. -/
def mapPml4 (pml4 phys : Ptr) (virt flags : BitVec 64) : Machine :=
  match walk (mapLevel · flags) [index virt 39, index virt 30, index virt 21] m pml4 with
  | (m, none) => {m with events := m.events.unmap}
  | (m, some pt) =>
    m.setLeaf pt (index virt 12)
      (phys ||| pagePresent ||| pageWritable ||| (flags &&& pageUser) ||| (flags &&& pageNx))

def mapPageDir (pml4 phys : Ptr) (virt flags : BitVec 64) : Machine :=
  m.mapPml4 pml4 phys virt flags

def mapPageRo (pml4 phys : Ptr) (virt : BitVec 64) (exec : Bool) : Machine :=
  match m.ptePtr pml4 virt true with
  | (m, none) => m
  | (m, some (pt, i)) =>
    m.setLeaf pt i (frameOf phys ||| (pagePresent ||| pageUser ||| if exec then 0#64 else pageNx))

/-! ### Page directories -/

def allocPageDirectory : Machine × Ptr :=
  let (m, pml4) := m.allocPage
  if pml4 = 0#64 then (m, 0#64)
  else
    let m := m.fill pml4 fun _ => 0#64
    let e := m.word m.kernelPml4 (BitVec.ofNat 9 pml4Higher)
    (if has e pagePresent then m.store pml4 (BitVec.ofNat 9 pml4Higher) e else m, pml4)

def freeEach (live : BitVec 64 → Bool) (release : Machine → Ptr → Machine) (n : Nat)
    (m : Machine) (tbl : Ptr) : Machine := ((indices n).foldl
    (fun m i => if live (m.word tbl i) then release m (frameOf (m.word tbl i)) else m)
    m).freePage tbl

def isPresent (e : BitVec 64) : Bool := has e pagePresent

def isTable (e : BitVec 64) : Bool := has e pagePresent && !has e pageHuge

def freePt : Machine → Ptr → Machine := freeEach isPresent freePage 512

def freePd : Machine → Ptr → Machine := freeEach isTable freePt 512

def freePdpt : Machine → Ptr → Machine := freeEach isTable freePd 512

def freePageDirectory (pml4 : Ptr) : Machine :=
  if pml4 = 0#64 then m else freeEach isPresent freePdpt pml4Higher m pml4

def visitEach (live : BitVec 64 → Bool) (visit : Machine → BitVec 9 → Ptr → Machine × Bool)
    (n : Nat) (m : Machine) (tbl : Ptr) : Machine × Bool :=
  forEach (fun m i => if live (m.word tbl i) then visit m i (frameOf (m.word tbl i)) else (m, true))
    (indices n) m

end Machine

def pageAddr (i j k l : BitVec 9) : BitVec 64 :=
  (i.setWidth 64 <<< 39) ||| (j.setWidth 64 <<< 30) ||| (k.setWidth 64 <<< 21) |||
    (l.setWidth 64 <<< 12)

/-- What fork makes of a leaf entry, in parent and child alike: a writable page becomes
read-only and copy-on-write, any other is shared as it is. -/
def shareEntry (e : BitVec 64) : BitVec 64 :=
  if has e pageWritable then (e &&& ~~~pageWritable) ||| pteCow else e

namespace Machine

/-- The innermost body of `clone_page_directory_cow`, for entry `l` of the parent's table. -/
def shareLeaf (child : Ptr) (i j k : BitVec 9) (pt : Ptr) (m : Machine) (l : BitVec 9) :
    Machine × Bool :=
  let e := m.word pt l
  if has e pagePresent then
    match m.ptePtr child (pageAddr i j k l) true with
    | (m, none) => (m, false)
    | (m, some (ct, ci)) =>
      let m := if has e pageWritable then m.store pt l (shareEntry e) else m
      ((m.store ct ci (shareEntry e)).pageIncref (frameOf e), true)
  else (m, true)

def clonePageDirectoryCow (m : Machine) (parent : Ptr) : Machine × Ptr :=
  if parent = 0#64 then (m, 0#64)
  else
    let (m, child) := m.allocPageDirectory
    if child = 0#64 then (m, 0#64)
    else
      match visitEach isPresent (fun m i pdpt =>
          visitEach isTable (fun m j pd =>
            visitEach isTable (fun m k pt =>
              forEach (shareLeaf child i j k pt) (indices 512) m) 512 m pd) 512 m pdpt)
          pml4Higher m parent with
      | (m, true) => (m, child)
      | (m, false) => (m.freePageDirectory child, 0#64)

end Machine

end Nyx.Paging
