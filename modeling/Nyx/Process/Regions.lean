import Nyx.Process.Lifecycle

/-! The mmap table of a thread group (`mmap.c`), which its leader owns. -/
namespace Nyx.Process
namespace Kernel

def mmapBase : BitVec 64 := 0x100000000#64
def mmapMax : BitVec 64 := 0x700000000000#64
def mapFailed : BitVec 64 := BitVec.allOnes 64

/-- Up to whole pages, in 64-bit arithmetic. -/
def roundUp (n : BitVec 64) : BitVec 64 := (n + 0xFFF#64) &&& ~~~0xFFF#64

def pageFloor (a : BitVec 64) : BitVec 64 := a &&& ~~~0xFFF#64

/-- `mmap_next`, with its initialization on first use. -/
def mmapStart (t : Proc) : BitVec 64 := if t.mmapNext < mmapBase then mmapBase else t.mmapNext

def freeSlot (t : Proc) : Option (Fin procMaxVmas) :=
  (List.finRange procMaxVmas).find? fun i => !(t.mmapVmas i).used

/-- A file to be mapped: the handle (0 for none), its size and the offset of byte 0. -/
structure FileArg where
  handle : BitVec 32
  size : BitVec 32
  off : BitVec 32
deriving DecidableEq, Repr

def FileArg.backed (f : FileArg) : Bool := f.handle != 0#32 && f.off.ult f.size

variable (k : Kernel)

/-- The snapshot taken by `do_mmap`, or nothing when `vfs_pread` (which succeeds when
`readable`) or the heap fails. -/
def snapshot (file : FileArg) (block : Nat) (readable : Bool) : Kernel × Option (Nat × BitVec 32) :=
  if file.backed then
    let (k, fb) := k.kmalloc block
    if fb = 0 then (k, none)
    else if readable then (k, some (fb, file.size - file.off))
    else (k.kfree fb, none)
  else (k, some (0, 0))

/-- `do_mmap`. -/
def doMmap (self : Nat) (length : BitVec 64) (prot : BitVec 32) (file : FileArg) (block : Nat)
    (readable : Bool) : Kernel × BitVec 64 :=
  let p := k.tgLeader self
  if length = 0#64 then (k, mapFailed)
  else
    let length := roundUp length
    let base := mmapStart (k.procs p)
    let k := k.modify p fun t => {t with mmapNext := base}
    match freeSlot (k.procs p) with
    | none => (k, mapFailed)
    | some slot =>
      if mmapMax < base + length ∨ base + length < base then (k, mapFailed)
      else
        match k.snapshot file block readable with
        | (k, none) => (k, mapFailed)
        | (k, some (fb, snap)) =>
          let v : Vma := ⟨base, base + length, prot, true, fb, snap⟩
          let k := k.modify p fun t => {t with mmapNext := base + length}
          (k.modify p (setVma · slot v), base)

/-- The range check `do_mprotect` and `do_munmap` share: user memory that does not wrap. -/
def userRange (addr stop : BitVec 64) : Prop :=
  addr < stop ∧ userSpaceMin ≤ addr ∧ stop ≤ userSpaceEnd

instance (addr stop : BitVec 64) : Decidable (userRange addr stop) :=
  inferInstanceAs (Decidable (_ ∧ _ ∧ _))

def reprotect (start stop : BitVec 64) (prot : BitVec 32) (v : Vma) : Vma :=
  if v.used = true ∧ v.start < stop ∧ start < v.stop then {v with prot := prot} else v

/-- `do_mprotect` on the region table: any overlap changes the whole region. -/
def doMprotect (self : Nat) (addr length : BitVec 64) (prot : BitVec 32) : Kernel × BitVec 32 :=
  let p := k.tgLeader self
  let start := pageFloor addr
  let stop := start + roundUp length
  if (k.procs p).pageDirectory = 0 ∨ length = 0#64 ∨ ¬ userRange start stop then (k, failed)
  else
    (k.modify p fun t => {t with mmapVmas := fun i => reprotect start stop prot (t.mmapVmas i)}, 0)

/-- One turn of the loop of `do_munmap`: a region inside the range is dropped. -/
def unmapVma (p : Nat) (start stop : BitVec 64) (k : Kernel) (i : Fin procMaxVmas) : Kernel :=
  let v := (k.procs p).mmapVmas i
  if v.used = true ∧ start ≤ v.start ∧ v.stop ≤ stop then
    if v.fileBuf = 0 then k.modify p (setVma · i {v with used := false})
    else (k.kfree v.fileBuf).modify p (setVma · i {disown v with used := false})
  else k

/-- `do_munmap` on the region table. -/
def doMunmap (self : Nat) (addr length : BitVec 64) : Kernel × BitVec 32 :=
  let p := k.tgLeader self
  let start := pageFloor addr
  let stop := start + roundUp length
  if (k.procs p).pageDirectory = 0 ∨ length = 0#64 ∨ ¬ userRange start stop then (k, failed)
  else ((List.finRange procMaxVmas).foldl (unmapVma p start stop) k, 0)

section
variable {γ : Type} {view : Kernel → γ} (h : Blind view)
include h

theorem Blind.snapshot (file : FileArg) (block : Nat) (readable : Bool) :
    view (k.snapshot file block readable).1 = view k := by
  unfold Kernel.snapshot
  dsimp only
  split
  · split
    · exact h.kmalloc ..
    · split
      · exact h.kmalloc ..
      · rw [h.kfree, h.kmalloc]
  · rfl

theorem Blind.doMmap (self : Nat) (length : BitVec 64) (prot : BitVec 32) (file : FileArg)
    (block : Nat) (readable : Bool) :
    view (k.doMmap self length prot file block readable).1 = view k := by
  simp only [Kernel.doMmap]
  split
  · rfl
  generalize hk : k.modify _ _ = k₁
  have hsame : view k₁ = view k := by
    rw [← hk]
    exact h.modify _ _ _ fun _ => rfl
  have htaken := h.snapshot k₁ file block readable
  split
  · exact hsame
  split
  · exact hsame
  split
  case h_1 k' he =>
    rw [he] at htaken
    exact htaken.trans hsame
  case h_2 k' fb snap he =>
    rw [he] at htaken
    refine ((h.setVma ..).trans (h.modify _ _ _ ?_)).trans (htaken.trans hsame)
    exact fun _ => rfl

theorem Blind.doMprotect (self : Nat) (addr length : BitVec 64) (prot : BitVec 32) :
    view (k.doMprotect self addr length prot).1 = view k := by
  simp only [Kernel.doMprotect]
  split
  · rfl
  · dsimp only
    exact h.modify _ _ _ fun _ => rfl

theorem Blind.foldl_unmapVma (p : Nat) (start stop : BitVec 64) (l : List (Fin procMaxVmas)) :
    view (l.foldl (unmapVma p start stop) k) = view k := by
  refine Lib.foldl_view view (fun k i => ?_) k l
  unfold unmapVma
  dsimp only
  split
  · split
    · exact h.setVma ..
    · rw [h.setVma, h.kfree]
  · rfl

theorem Blind.doMunmap (self : Nat) (addr length : BitVec 64) :
    view (k.doMunmap self addr length).1 = view k := by
  simp only [Kernel.doMunmap]
  split
  · rfl
  · exact h.foldl_unmapVma ..

end

end Kernel
end Nyx.Process
