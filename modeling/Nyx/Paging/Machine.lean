import Nyx.Memory.Frames

/-! Physical memory under the page allocator, as `kernel/paging.c` sees it.

The kernel reaches every frame through the identity map: a pointer is a physical address, and
page tables and user pages are words of the same memory. Calls that go wrong without saying so
are counted in `events`, which no operation reads. -/
namespace Nyx.Paging
open Memory

/-- A physical address; 0 is `NULL`. -/
abbrev Ptr := BitVec 64

def pagePresent : BitVec 64 := 0x1#64
def pageWritable : BitVec 64 := 0x2#64
def pageUser : BitVec 64 := 0x4#64
def pageHuge : BitVec 64 := 0x80#64
def pteDemand : BitVec 64 := 0x200#64
def pteCow : BitVec 64 := 0x400#64
def pageNx : BitVec 64 := 0x8000000000000000#64

/-- Physical address bits 51:12 of an entry. -/
def pteAddrMask : BitVec 64 := 0x000FFFFFFFFFF000#64

def has (e flag : BitVec 64) : Bool := e &&& flag != 0#64

def frameOf (e : BitVec 64) : Ptr := e &&& pteAddrMask

structure Events where
  /-- Calls of `alloc_page` that returned `NULL`. -/
  nulls : Nat
  /-- Calls of `page_incref` on an unpinned frame whose counter was full. -/
  saturations : Nat
  /-- Calls of `map_pml4` that returned without a mapping. -/
  unmapped : Nat
  /-- Mappings written over a present leaf whose frame is not pinned. -/
  replaced : Nat
  /-- Library frames pinned for a library that was then not registered. -/
  orphans : Nat
  panics : Nat
deriving DecidableEq, Repr

namespace Events

def none : Events := ⟨0, 0, 0, 0, 0, 0⟩

variable (ev : Events)

def null (happens : Bool) : Events := {ev with nulls := ev.nulls + happens.toNat}

def saturate (happens : Bool) : Events := {ev with saturations := ev.saturations + happens.toNat}

def unmap : Events := {ev with unmapped := ev.unmapped + 1}

def replace (happens : Bool) : Events := {ev with replaced := ev.replaced + happens.toNat}

def orphan (n : Nat) : Events := {ev with orphans := ev.orphans + n}

def panic (happens : Bool) : Events := {ev with panics := ev.panics + happens.toNat}

end Events

structure Machine where
  frames : Frames
  /-- The 512 words of each frame, by the frame's address. -/
  word : Ptr → BitVec 9 → BitVec 64
  kernelPml4 : Ptr
  /-- The calls of `alloc_page` that find every frame taken by the rest of the kernel. -/
  exhausted : Nat → Bool
  allocCalls : Nat
  events : Events

namespace Machine

/-! ### Words and bytes -/

def store (m : Machine) (p : Ptr) (i : BitVec 9) (v : BitVec 64) : Machine :=
  {m with word := Function.update m.word p (Function.update (m.word p) i v)}

/-- All the words of a frame: `memset` and `memcpy` of a whole page. -/
def fill (m : Machine) (p : Ptr) (page : BitVec 9 → BitVec 64) : Machine :=
  {m with word := Function.update m.word p page}

section Words
variable {m : Machine} {p q : Ptr} {i j : BitVec 9} {v : BitVec 64} {page : BitVec 9 → BitVec 64}

@[simp] theorem store_self : (m.store p i v).word p i = v := by
  simp [store]

theorem store_ne (h : ¬ (q = p ∧ j = i)) : (m.store p i v).word q j = m.word q j := by
  simp only [store, Function.update_apply]
  by_cases hq : q = p
  · subst hq
    rw [if_pos rfl, Function.update_of_ne (fun hj => h ⟨rfl, hj⟩)]
  · rw [if_neg hq]

theorem store_page_ne (h : q ≠ p) : (m.store p i v).word q = m.word q := by
  funext j
  exact store_ne fun hx => h hx.1

@[simp] theorem store_store {w : BitVec 64} : (m.store p i v).store p i w = m.store p i w := by
  simp [store]

@[simp] theorem fill_self : (m.fill p page).word p = page := by
  simp [fill]

theorem fill_ne (h : q ≠ p) : (m.fill p page).word q = m.word q := by
  simp [fill, h]

end Words

end Machine

def byteOf (w : BitVec 64) (b : BitVec 3) : BitVec 8 := w.extractLsb' (8 * b.toNat) 8

def ofBytes (g : BitVec 3 → BitVec 8) : BitVec 64 :=
  g 7#3 ++ g 6#3 ++ g 5#3 ++ g 4#3 ++ g 3#3 ++ g 2#3 ++ g 1#3 ++ g 0#3

namespace Machine

variable (m : Machine) (p : Ptr)

/-- The byte at an offset of a frame; words are little-endian. -/
def byte (o : BitVec 12) : BitVec 8 :=
  byteOf (m.word p (o.extractLsb' 3 9)) (o.extractLsb' 0 3)

def setBytes (g : BitVec 12 → BitVec 8) : Machine :=
  m.fill p fun i => ofBytes fun b => g (i ++ b)

/-! ### The page allocator -/

def allocPage (m : Machine) : Machine × Ptr :=
  if m.exhausted m.allocCalls then
    ({m with allocCalls := m.allocCalls + 1, events := m.events.null true}, 0#64)
  else
    let (a, frames) := Memory.allocPage m.frames
    ({m with frames, allocCalls := m.allocCalls + 1, events := m.events.null (a == 0)},
      BitVec.ofNat 64 a)

def refcount : BitVec 8 := m.frames.pageRefcount (pageIdx p.toNat)

def pinned : Bool := m.frames.pagePinned (pageIdx p.toNat)

def pageGetRefcount (m : Machine) (p : Ptr) : BitVec 8 := Memory.pageGetRefcount m.frames p.toNat

def pageIncref (m : Machine) (p : Ptr) : Machine :=
  { m with
    frames := Memory.pageIncref m.frames p.toNat
    events := m.events.saturate (m.refcount p == 255#8 && !m.pinned p) }

def freePage (m : Machine) (p : Ptr) : Machine := {m with frames := Memory.freePage m.frames p.toNat}

def pagePin (m : Machine) (p : Ptr) : Machine := {m with frames := Memory.pagePin m.frames p.toNat}

end Machine

end Nyx.Paging
