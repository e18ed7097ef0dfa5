import Nyx.Lib.Wrapping
import Nyx.Memory.Coherence

/-! The pool after `init_memory` with a firmware map.

The regions of the map come in any order, may overlap and start and end anywhere. Each frees the
whole pages in it (`freeRegion_isFree`), so the order does not matter, and the pages below the end
of the image are taken back. -/
namespace Nyx.Memory
open Nyx.Lib List

def MmapEntry.stop (r : MmapEntry) : Nat := r.base.toNat + r.len.toNat

/-- All of page `p` is available RAM of the entry. -/
def MmapEntry.Covers (r : MmapEntry) (p : Nat) : Prop :=
  r.kind = 1#32 ∧ r.base.toNat ≤ p * pageSize ∧ (p + 1) * pageSize ≤ r.stop

instance (r : MmapEntry) (p : Nat) : Decidable (r.Covers p) := inferInstanceAs (Decidable (_ ∧ _))

/-- Where available RAM ends. -/
def highestEnd (mmap : List MmapEntry) : Nat :=
  ((mmap.filter (·.kind = 1#32)).map MmapEntry.stop).foldr max 0

def KernelImage.firstPage (k : KernelImage) : Nat :=
  max (0x100000 / pageSize) ((k.kernelEnd + pageSize - 1) / pageSize)

/-! ### Rounding -/

theorem toNat_and_pageMask (x : BitVec 64) :
    (x &&& ~~~(BitVec.ofNat 64 (pageSize - 1))).toNat = x.toNat / pageSize * pageSize :=
  toNat_and_not_low x

/-! ### One region -/

theorem freeFrom_total (n a : Nat) (s : Frames) : (freeFrom s n a).totalPages = s.totalPages := by
  induction n generalizing s a with
  | zero => rfl
  | succ n ih =>
    simp only [freeFrom]
    split
    · rfl
    rw [ih]
    split <;> rfl

/-- Freeing `n` pages from page `q` on frees those of the pool in that range. -/
theorem freeFrom_isFree (n q : Nat) (hq : q + n ≤ 2 ^ 32) (s : Frames) (p : Nat) :
    isFree (freeFrom s n (q * pageSize)) p =
      (isFree s p || decide (q ≤ p ∧ p < q + n ∧ p < s.totalPages)) := by
  induction n generalizing s q with
  | zero =>
    have hnone : ¬ (q ≤ p ∧ p < q + 0 ∧ p < s.totalPages) := by omega
    rw [decide_eq_false hnone, freeFrom, Bool.or_false]
  | succ n ih =>
    have hpage : q * pageSize / pageSize % 2 ^ 32 = q := by
      rw [Nat.mul_div_cancel _ (by decide), Nat.mod_eq_of_lt (by omega)]
    have hnext : q * pageSize + pageSize = (q + 1) * pageSize := by rw [Nat.add_mul, Nat.one_mul]
    simp only [freeFrom, hpage, hnext]
    split
    case isTrue hend =>
      have hnone : ¬ (q ≤ p ∧ p < q + (n + 1) ∧ p < s.totalPages) := by omega
      simp [hnone]
    case isFalse hend =>
      rw [ih (q + 1) (by omega)]
      have hsplit : (q ≤ p ∧ p < q + (n + 1) ∧ p < s.totalPages) ↔
          p = q ∨ (q + 1 ≤ p ∧ p < q + 1 + n ∧ p < s.totalPages) := by omega
      have hset : isFree (if Bitmap.test s.pageBitmap q then s else
          {s with pageBitmap := Bitmap.set s.pageBitmap q, freePages := s.freePages + 1#32}) p =
          (isFree s p || decide (p = q)) := by
        split
        case isTrue hfree =>
          by_cases hpq : p = q
          · simp [hpq, isFree, hfree]
          · simp [hpq]
        case isFalse =>
          exact (Bitmap.test_set (by decide) _ _ _).trans (by simp [isFree, Bool.or_comm])
      have htotal : (if Bitmap.test s.pageBitmap q then s else
          {s with pageBitmap := Bitmap.set s.pageBitmap q,
                  freePages := s.freePages + 1#32}).totalPages = s.totalPages := by
        split <;> rfl
      rw [hset, htotal, Bool.or_assoc, decide_eq_decide.mpr hsplit, Bool.decide_or]

theorem freeRegion_isFree {r : MmapEntry} (hr : r.stop < 2 ^ 44) (s : Frames) (p : Nat) :
    isFree (freeRegion s r) p = (isFree s p || decide (r.Covers p ∧ p < s.totalPages)) := by
  rw [freeRegion]
  split
  case isTrue hkind => simp [MmapEntry.Covers, hkind]
  case isFalse hkind =>
    rw [MmapEntry.stop] at hr
    have hbase := r.base.isLt
    have hup : (r.base + BitVec.ofNat 64 pageSize - 1#64).toNat = r.base.toNat + 4095 := by
      have hsum : (r.base + BitVec.ofNat 64 pageSize).toNat = r.base.toNat + 4096 := by
        rw [BitVec.toNat_add, BitVec.toNat_ofNat, pageSize]
        omega
      rw [BitVec.toNat_sub_of_le (BitVec.le_def.mpr (by rw [hsum]; simp)), hsum]
      rfl
    have hend : (r.base + r.len).toNat = r.base.toNat + r.len.toNat := by
      rw [BitVec.toNat_add]
      omega
    have hcount : ((r.base.toNat + r.len.toNat) / pageSize * pageSize -
        (r.base.toNat + 4095) / pageSize * pageSize) / pageSize =
        (r.base.toNat + r.len.toNat) / pageSize - (r.base.toNat + 4095) / pageSize := by
      rw [← Nat.sub_mul, Nat.mul_div_cancel _ (by decide)]
    have hkind' : r.kind = 1#32 := by simpa using hkind
    have hcovers : ((r.base.toNat + 4095) / pageSize ≤ p ∧ p < (r.base.toNat + 4095) / pageSize +
          ((r.base.toNat + r.len.toNat) / pageSize - (r.base.toNat + 4095) / pageSize) ∧
        p < s.totalPages) ↔ r.Covers p ∧ p < s.totalPages := by
      simp only [MmapEntry.Covers, hkind', true_and, MmapEntry.stop, pageSize]
      omega
    simp only [toNat_and_pageMask, hup, hend, hcount]
    rw [freeFrom_isFree _ _ (by simp only [pageSize]; omega), decide_eq_decide.mpr hcovers]

/-! ### The whole map -/

theorem freeRegion_total (s : Frames) (r : MmapEntry) :
    (freeRegion s r).totalPages = s.totalPages := by
  rw [freeRegion]
  split
  · rfl
  · exact freeFrom_total _ _ _

theorem foldl_freeRegion_total (mmap : List MmapEntry) (s : Frames) :
    (mmap.foldl freeRegion s).totalPages = s.totalPages := by
  induction mmap generalizing s with
  | nil => rfl
  | cons r rest ih => rw [foldl_cons, ih, freeRegion_total]

section
variable {mmap : List MmapEntry} (hsmall : ∀ r ∈ mmap, r.stop < 2 ^ 44)
include hsmall

theorem foldl_freeRegion_isFree (s : Frames) (p : Nat) : isFree (mmap.foldl freeRegion s) p = true ↔
      isFree s p = true ∨ (∃ r ∈ mmap, r.Covers p) ∧ p < s.totalPages := by
  induction mmap generalizing s with
  | nil => simp
  | cons r rest ih =>
    have hr := hsmall r (mem_cons_self ..)
    rw [foldl_cons, ih fun r' h => hsmall r' (mem_cons_of_mem _ h), freeRegion_total,
      freeRegion_isFree hr, Bool.or_eq_true, decide_eq_true_eq]
    simp only [exists_mem_cons_iff]
    tauto

/-- The running maximum of the loop that sizes the pool. -/
theorem ramTop_eq : (ramTop mmap).toNat = highestEnd mmap := by
  have hfold : ∀ (mmap : List MmapEntry) (top : BitVec 64), (∀ r ∈ mmap, r.stop < 2 ^ 44) →
      (mmap.foldl (fun top r => if r.kind = 1#32 ∧ r.base + r.len > top then r.base + r.len
        else top) top).toNat = max top.toNat (highestEnd mmap) := by
    intro mmap
    induction mmap with
    | nil => intro top _; exact (Nat.max_zero _).symm
    | cons r rest ih =>
      intro top hsmall
      have hr := hsmall r (mem_cons_self ..)
      have hend : (r.base + r.len).toNat = r.stop := by
        rw [BitVec.toNat_add, Nat.mod_eq_of_lt (by rw [MmapEntry.stop] at hr; omega)]
        rfl
      rw [foldl_cons, ih _ fun r' h => hsmall r' (mem_cons_of_mem _ h)]
      by_cases hkind : r.kind = 1#32
      · have hcons : highestEnd (r :: rest) = max r.stop (highestEnd rest) := by
          rw [highestEnd, filter_cons_of_pos (by simpa using hkind)]
          rfl
        rw [hcons, ← Nat.max_assoc]
        congr 1
        split
        case isTrue hgt =>
          rw [hend, Nat.max_eq_right]
          exact Nat.le_of_lt (hend ▸ BitVec.lt_def.mp hgt.2)
        case isFalse hle =>
          refine (Nat.max_eq_left ?_).symm
          rw [← hend]
          exact BitVec.le_def.mp (BitVec.not_lt.mp fun h => hle ⟨hkind, h⟩)
      · have hcons : highestEnd (r :: rest) = highestEnd rest := by
          rw [highestEnd, filter_cons_of_neg (by simpa using hkind)]
          rfl
        rw [hcons, if_neg fun h => hkind h.1]
  rw [ramTop, hfold mmap 0#64 hsmall]
  exact Nat.zero_max _

theorem highestEnd_lt : highestEnd mmap < 2 ^ 44 := by
  rw [highestEnd]
  induction mmap with
  | nil => decide
  | cons r rest ih =>
    have hrest := ih fun r' h => hsmall r' (mem_cons_of_mem _ h)
    by_cases hkind : r.kind = 1#32
    · rw [filter_cons_of_pos (by simpa using hkind)]
      exact Nat.max_lt.mpr ⟨hsmall r (mem_cons_self ..), hrest⟩
    · rwa [filter_cons_of_neg (by simpa using hkind)]

end

theorem KernelImage.firstPage_eq (k : KernelImage) :
    (if k.endPage > 0x100000 / pageSize then k.endPage else 0x100000 / pageSize) = k.firstPage := by
  have hlow := k.low
  have hend : k.endPage = (k.kernelEnd + pageSize - 1) / pageSize := by
    simp only [KernelImage.endPage, pageSize]
    omega
  rw [hend, KernelImage.firstPage]
  split <;> omega

/-- After `init_memory` with a firmware map, a frame is free just when it is in the pool, behind
the image and the low megabyte, and all of it in one entry of available RAM. -/
theorem initMemory_map (k : KernelImage) (memSize : BitVec 64) (mmap : List MmapEntry)
    (hne : mmap ≠ []) (hsmall : ∀ r ∈ mmap, r.stop < 2 ^ 44) :
    let s := initMemory k memSize mmap
    s.totalPages = min maxPages (highestEnd mmap / pageSize) ∧ (∀ p, isFree s p = true ↔
        p < s.totalPages ∧ k.firstPage ≤ p ∧ ∃ r ∈ mmap, r.Covers p) ∧
      s.freePages.toNat = ((Finset.range s.totalPages).filter (isFree s · = true)).card := by
  intro s
  have hcounted : Counted s := (initMemory_booted k memSize mmap).counted
  -- All pages are used at first; then come the regions, then the image.
  obtain ⟨s₀, hinit, htotal₀, hused₀⟩ : ∃ s₀ : Frames,
      s = reserveLowPages (mmap.foldl freeRegion s₀) k.firstPage ∧
      s₀.totalPages = min ((ramTop mmap).toNat / pageSize % 2 ^ 32) maxPages ∧
      ∀ p, isFree s₀ p = false := by
    obtain ⟨r, rest, hcons⟩ := List.exists_cons_of_ne_nil hne
    refine ⟨{ Frames.zero with
      memoryTotal := memSize
      totalPages := min ((ramTop mmap).toNat / pageSize % 2 ^ 32) maxPages }, ?_, rfl, fun p => ?_⟩
    · rw [← k.firstPage_eq]
      show initMemory k memSize mmap = _
      rw [hcons]
      rfl
    · simp [isFree, Bitmap.test, Frames.zero]
  have hsame : s.totalPages = s₀.totalPages := by
    rw [hinit, reserveLowPages, (reserveFrom_tables _ _ _).2.2, foldl_freeRegion_total]
  have hlt := highestEnd_lt hsmall
  have htotal : s.totalPages = min maxPages (highestEnd mmap / pageSize) := by
    rw [hsame, htotal₀, ramTop_eq hsmall, Nat.mod_eq_of_lt (by rw [pageSize]; omega), Nat.min_comm]
  refine ⟨htotal, fun p => ?_, hcounted.2⟩
  have hfree : isFree s p = true ↔ isFree (mmap.foldl freeRegion s₀) p = true ∧
      ¬ (0 ≤ p ∧ p < 0 + k.firstPage ∧ p < s₀.totalPages) := by
    rw [hinit, reserveLowPages, reserveFrom_isFree, foldl_freeRegion_total, Bool.and_eq_true,
      Bool.not_eq_true', decide_eq_false_iff_not]
  rw [hfree, foldl_freeRegion_isFree hsmall, hused₀, hsame]
  constructor
  · rintro ⟨hfree | ⟨hcov, hp⟩, hnot⟩
    · exact absurd hfree Bool.false_ne_true
    · exact ⟨hp, by omega, hcov⟩
  · rintro ⟨hp, hlow, hcov⟩
    exact ⟨.inr ⟨hcov, hp⟩, by omega⟩

/-- Two entries that overlap, one of which ends in the middle of a page. -/
theorem initMemory_map_overlap :
    let mmap := [⟨0#64, 0x101800#64, 1#32⟩, ⟨0x100800#64, 0x1800#64, 1#32⟩]
    let s := initMemory smallestImage 0#64 mmap
    s.totalPages = 258 ∧ isFree s 256 = true ∧ isFree s 257 = true := by
  intro mmap s
  obtain ⟨htotal, hfree, -⟩ := initMemory_map smallestImage 0#64 mmap (by decide) (by decide)
  have h258 : s.totalPages = 258 := htotal.trans (by decide)
  refine ⟨h258, (hfree 256).mpr ⟨?_, by decide, by decide⟩, (hfree 257).mpr ⟨?_, by decide, by decide⟩⟩
  · exact h258 ▸ (by decide : 256 < 258)
  · exact h258 ▸ (by decide : 257 < 258)

end Nyx.Memory
