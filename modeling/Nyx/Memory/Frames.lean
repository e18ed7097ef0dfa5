import Nyx.Lib.Bitmap

/-! The physical page allocator (`kernel/memory.c`).

One bit a frame (1 = free), an 8-bit reference count, a pin flag and a running count of free
frames. `alloc_page` scans the bitmap a word at a time; `free_page` drops a reference and returns
the frame with the last one, except a pinned frame. `page_lock` is held across each operation, so
each is one step. Frames are named by their physical address, and the address 0 is `NULL`. -/
namespace Nyx.Memory
open Nyx.Lib Function

def pageSize : Nat := 4096
def maxPages : Nat := 512 * 1024 * 1024 / 4096
def bitmapWords : Nat := maxPages / 32

/-- The allocator's globals. Indices at and above `maxPages` are never touched. -/
structure Frames where
  totalPages : Nat
  freePages : BitVec 32
  pageBitmap : Nat → BitVec 32
  pageRefcount : Nat → BitVec 8
  pagePinned : Nat → Bool
  memoryTotal : BitVec 64
  memoryUsed : BitVec 64

/-- The globals before `init_memory`: C statics, all zero. -/
def Frames.zero : Frames := ⟨0, 0#32, fun _ => 0#32, fun _ => 0#8, fun _ => false, 0#64, 0#64⟩

/-- `(uint32_t)(uintptr_t)addr / PAGE_SIZE`: the cast comes before the division. -/
def pageIdx (addr : Nat) : Nat := addr % 2 ^ 32 / pageSize

variable (s : Frames) (addr : Nat)

def isFree (p : Nat) : Bool := Bitmap.test s.pageBitmap p

/-! ### The operations -/

def pagePin (addr : Nat) : Frames :=
  if pageIdx addr < maxPages then
    {s with pagePinned := Function.update s.pagePinned (pageIdx addr) true}
  else s

/-- The frame `alloc_page` settles on, if the scan reaches one. -/
def allocIdx : Option Nat := Bitmap.scan s.pageBitmap s.totalPages bitmapWords 0

/-- The address handed out (0 for `NULL`) and the allocator after the call. -/
def allocPage : Nat × Frames :=
  match allocIdx s with
  | none => (0, s)
  | some p =>
    (p * pageSize,
      { s with
        pageBitmap := Bitmap.clear s.pageBitmap p
        freePages := s.freePages - 1#32
        memoryUsed := s.memoryUsed + BitVec.ofNat 64 pageSize
        pageRefcount := Function.update s.pageRefcount p 1#8 })

/-- A reference more, saturating at `0xFF`. -/
def pageIncref (addr : Nat) : Frames :=
  let p := pageIdx addr
  if p ≥ s.totalPages then s
  else if s.pageRefcount p < 255#8 then
    {s with pageRefcount := Function.update s.pageRefcount p (s.pageRefcount p + 1#8)}
  else s

def pageGetRefcount (addr : Nat) : BitVec 8 :=
  let p := pageIdx addr
  if p ≥ s.totalPages then 0#8 else s.pageRefcount p

def freePage (addr : Nat) : Frames :=
  let p := pageIdx addr
  if p ≥ s.totalPages then s
  else if s.pageRefcount p > 1#8 then
    {s with pageRefcount := Function.update s.pageRefcount p (s.pageRefcount p - 1#8)}
  else if s.pagePinned p then
    -- a stray over-decrement of a master frame is floored at one
    {s with pageRefcount := Function.update s.pageRefcount p 1#8}
  else
    { s with
      pageRefcount := Function.update s.pageRefcount p 0#8
      pageBitmap := Bitmap.set s.pageBitmap p
      freePages := s.freePages + 1#32
      memoryUsed := s.memoryUsed - BitVec.ofNat 64 pageSize }

/-! ### What an operation does to one frame -/

theorem allocPage_some {s : Frames} {p : Nat} (h : allocIdx s = some p) :
    allocPage s = (p * pageSize,
      { s with
        pageBitmap := Bitmap.clear s.pageBitmap p
        freePages := s.freePages - 1#32
        memoryUsed := s.memoryUsed + BitVec.ofNat 64 pageSize
        pageRefcount := update s.pageRefcount p 1#8 }) := by
  simp only [allocPage, h]

theorem allocPage_none {s : Frames} (h : allocIdx s = none) : allocPage s = (0, s) := by
  simp only [allocPage, h]

@[simp] theorem allocPage_total : (allocPage s).2.totalPages = s.totalPages := by
  unfold allocPage
  split <;> rfl

@[simp] theorem allocPage_pinned : (allocPage s).2.pagePinned = s.pagePinned := by
  unfold allocPage
  split <;> rfl

theorem allocPage_refcount (q : Nat) :
    (allocPage s).2.pageRefcount q = if allocIdx s = some q then 1#8 else s.pageRefcount q := by
  cases h : allocIdx s with
  | none => simp [allocPage_none h]
  | some p =>
    rw [allocPage_some h]
    simp only [update_apply, Option.some.injEq, eq_comm]

theorem allocPage_isFree (q : Nat) :
    isFree (allocPage s).2 q = (isFree s q && !decide (allocIdx s = some q)) := by
  cases h : allocIdx s with
  | none => simp [allocPage_none h]
  | some p =>
    rw [allocPage_some h]
    show Bitmap.test (Bitmap.clear s.pageBitmap p) q = _
    rw [Bitmap.test_clear (by decide), Bool.and_comm]
    simp only [isFree, Option.some.injEq, eq_comm]

@[simp] theorem pagePin_refcount : (pagePin s addr).pageRefcount = s.pageRefcount := by
  unfold pagePin
  split <;> rfl

theorem pagePin_pinned (addr q : Nat) : (pagePin s addr).pagePinned q =
      (s.pagePinned q || decide (q = pageIdx addr ∧ q < maxPages)) := by
  unfold pagePin
  split
  case isTrue h =>
    show update s.pagePinned (pageIdx addr) true q = _
    by_cases hq : q = pageIdx addr
    · simp [hq, h]
    · simp [hq]
  case isFalse h =>
    have : ¬ (q = pageIdx addr ∧ q < maxPages) := fun hq => h (hq.1 ▸ hq.2)
    simp [this]

@[simp] theorem pageIncref_total : (pageIncref s addr).totalPages = s.totalPages := by
  unfold pageIncref
  simp only
  split <;> [rfl; split <;> rfl]

@[simp] theorem pageIncref_pinned : (pageIncref s addr).pagePinned = s.pagePinned := by
  unfold pageIncref
  simp only
  split <;> [rfl; split <;> rfl]

@[simp] theorem pageIncref_isFree : isFree (pageIncref s addr) = isFree s := by
  unfold pageIncref
  simp only
  split <;> [rfl; split <;> rfl]

theorem pageIncref_refcount (addr q : Nat) : (pageIncref s addr).pageRefcount q =
      if q = pageIdx addr ∧ q < s.totalPages ∧ s.pageRefcount q < 255#8 then s.pageRefcount q + 1#8
      else s.pageRefcount q := by
  unfold pageIncref
  simp only
  by_cases hq : q = pageIdx addr
  · subst hq
    by_cases ht : pageIdx addr ≥ s.totalPages
    · simp [ht]
    by_cases hr : s.pageRefcount (pageIdx addr) < 255#8
    · simp [ht, hr, Nat.lt_of_not_ge ht]
    · simp [ht, hr]
  · simp only [hq, false_and, if_false]
    split
    · rfl
    split
    · exact update_of_ne hq _ _
    · rfl

@[simp] theorem freePage_total : (freePage s addr).totalPages = s.totalPages := by
  unfold freePage
  simp only
  split <;> [rfl; (split <;> [rfl; split <;> rfl])]

@[simp] theorem freePage_pinned : (freePage s addr).pagePinned = s.pagePinned := by
  unfold freePage
  simp only
  split <;> [rfl; (split <;> [rfl; split <;> rfl])]

/-- Dropping a reference: one less while several are left, floored at one for a pinned
frame, none otherwise. -/
theorem freePage_refcount (addr q : Nat) : (freePage s addr).pageRefcount q =
      if q = pageIdx addr ∧ q < s.totalPages then
        if s.pageRefcount q > 1#8 then s.pageRefcount q - 1#8
        else if s.pagePinned q then 1#8 else 0#8
      else s.pageRefcount q := by
  unfold freePage
  simp only
  by_cases hq : q = pageIdx addr
  · subst hq
    by_cases ht : pageIdx addr ≥ s.totalPages
    · have : ¬ pageIdx addr < s.totalPages := by omega
      simp [ht, this]
    have hlt : pageIdx addr < s.totalPages := by omega
    simp only [ht, hlt, if_false, and_self, if_true]
    split
    · exact update_self ..
    · split <;> exact update_self ..
  · simp only [hq, false_and, if_false]
    split
    · rfl
    split
    · exact update_of_ne hq _ _
    · split <;> exact update_of_ne hq _ _

theorem freePage_isFree (addr q : Nat) : isFree (freePage s addr) q =
      (isFree s q || decide (q = pageIdx addr ∧ q < s.totalPages ∧ ¬ s.pageRefcount q > 1#8 ∧
        s.pagePinned q = false)) := by
  unfold freePage
  simp only
  by_cases hq : q = pageIdx addr
  · subst hq
    by_cases ht : pageIdx addr ≥ s.totalPages
    · have : ¬ pageIdx addr < s.totalPages := by omega
      simp [ht, this]
    have hlt : pageIdx addr < s.totalPages := by omega
    simp only [ht, hlt, if_false, true_and]
    by_cases hr : s.pageRefcount (pageIdx addr) > 1#8
    · simp only [hr, if_true, not_true, false_and, decide_false, Bool.or_false]
      rfl
    cases hp : s.pagePinned (pageIdx addr) with
    | true =>
      simp only [hr, if_false, if_true, reduceCtorEq, and_false, decide_false, Bool.or_false]
      rfl
    | false =>
      simp only [hr, if_false, Bool.false_eq_true, not_false_iff, and_self, decide_true,
        Bool.or_true]
      exact (Bitmap.test_set (by decide) _ _ _).trans (by simp)
  · simp only [hq, false_and, decide_false, Bool.or_false]
    split
    · rfl
    split
    · rfl
    split
    · rfl
    · exact (Bitmap.test_set (by decide) _ _ _).trans (by simp [hq, isFree])

/-! ### Initialization -/

/-- One region of the firmware memory map (`mb_mmap_entry_t`); `kind` is its `type`,
1 for available RAM. -/
structure MmapEntry where
  base : BitVec 64
  len : BitVec 64
  kind : BitVec 32
deriving DecidableEq, Repr

/-- Where the linked image ends. `linker.ld` starts the image at 1 MiB and defines
`_kernel_end` after it; the boot code enters it in 32-bit mode. -/
structure KernelImage where
  kernelEnd : Nat
  loaded : 0x100000 ≤ kernelEnd
  low : kernelEnd < 2 ^ 32

def KernelImage.endPage (k : KernelImage) : Nat := (k.kernelEnd + pageSize - 1) / pageSize % 2 ^ 32

/-- Pages `i`, `i + 1`, … (`n` of them), stopping at the end of the pool: each that is
free becomes used. -/
def reserveFrom (s : Frames) : (n i : Nat) → Frames
  | 0, _ => s
  | n + 1, i =>
    if i < s.totalPages then
      reserveFrom (if Bitmap.test s.pageBitmap i then
          {s with pageBitmap := Bitmap.clear s.pageBitmap i, freePages := s.freePages - 1#32}
        else s) n (i + 1)
    else s

def reserveLowPages (endPage : Nat) : Frames := reserveFrom s endPage 0

/-- The top of available RAM: the largest `base + len` (a 64-bit sum) of a type-1 entry. -/
def ramTop (mmap : List MmapEntry) : BitVec 64 :=
  mmap.foldl (fun top r => if r.kind = 1#32 ∧ r.base + r.len > top then r.base + r.len else top) 0#64

/-- The pages at addresses `a`, `a + 4096`, … (`n` of them) become free, up to the first
whose (32-bit) page number is past the pool. -/
def freeFrom (s : Frames) : (n a : Nat) → Frames
  | 0, _ => s
  | n + 1, a =>
    let p := a / pageSize % 2 ^ 32
    if p ≥ s.totalPages then s
    else
      freeFrom (if Bitmap.test s.pageBitmap p then s
        else {s with pageBitmap := Bitmap.set s.pageBitmap p, freePages := s.freePages + 1#32})
        n (a + pageSize)

def freeRegion (r : MmapEntry) : Frames :=
  if r.kind ≠ 1#32 then s
  else
    let mask : BitVec 64 := ~~~(BitVec.ofNat 64 (pageSize - 1))
    let start := (r.base + BitVec.ofNat 64 pageSize - 1#64) &&& mask
    let stop := (r.base + r.len) &&& mask
    freeFrom s ((stop.toNat - start.toNat) / pageSize) start.toNat

/-- `init_memory`; no entries is a boot without a firmware map. -/
def initMemory (k : KernelImage) (memSize : BitVec 64) (mmap : List MmapEntry) : Frames :=
  let s : Frames := {Frames.zero with memoryTotal := memSize, memoryUsed := 0#64}
  match mmap with
  | [] =>
    let total := min (memSize.toNat / pageSize % 2 ^ 32) maxPages
    reserveLowPages
      {s with pageBitmap := fun _ => BitVec.allOnes 32, totalPages := total,
              freePages := BitVec.ofNat 32 total}
      k.endPage
  | _ =>
    let total := min ((ramTop mmap).toNat / pageSize % 2 ^ 32) maxPages
    let low1mb := 0x100000 / pageSize
    reserveLowPages
      (mmap.foldl freeRegion {s with pageBitmap := fun _ => 0#32, totalPages := total, freePages := 0#32})
      (if k.endPage > low1mb then k.endPage else low1mb)

end Nyx.Memory
