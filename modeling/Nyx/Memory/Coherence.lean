import Nyx.Memory.Frames
import Nyx.Lib.Run

/-! The allocator's bitmap, reference counts, pins and free count agree.

`Coherent boot s` relates the allocator after some calls (`s`) to what `init_memory` left
(`boot`): the free count is the number of set bits of the pool, a frame free at boot is free
now exactly when its reference count is 0, and a frame reserved at boot stays reserved and
untracked. Every operation keeps it as long as references are only added to and dropped from
frames that have one (`Tracked`), and with it `alloc_page` fails exactly when nothing is free. -/
namespace Nyx.Memory
open Nyx.Lib Bitmap

/-! ### Runs -/

inductive Op where
  | alloc
  | pin (addr : Nat)
  | incref (addr : Nat)
  | free (addr : Nat)
deriving DecidableEq, Repr

def step (s : Frames) : Op → Frames
  | .alloc => (allocPage s).2
  | .pin addr => pagePin s addr
  | .incref addr => pageIncref s addr
  | .free addr => freePage s addr

/-- References are added to and dropped from frames that have one. -/
def Tracked (s : Frames) : Op → Prop
  | .incref addr | .free addr => s.pageRefcount (pageIdx addr) ≠ 0#8
  | _ => True

/-! ### What the operations do to the bitmap -/

theorem isFree_clear (s : Frames) (p q : Nat) :
    test (clear s.pageBitmap p) q = (!decide (q = p) && isFree s q) := test_clear (by decide) _ _ _

theorem allocIdx_some {s : Frames} {p : Nat} (h : allocIdx s = some p) :
    p < s.totalPages ∧ isFree s p = true := by
  have hscan := scan_some (by decide) _ _ _ _ _ (by simp) h
  exact ⟨hscan.1, hscan.2.1⟩

section
variable {s : Frames} (hsmall : s.totalPages ≤ maxPages)
include hsmall

/-- The scan gives up only when no frame of the pool is free: a set bit of the last
word past the end of the pool hides none before it. -/
theorem allocIdx_none (h : allocIdx s = none) : ∀ p, p < s.totalPages → isFree s p = false := by
  apply scan_none (by decide) _ _ _ _ _ (by simp) h
  exact Nat.le_trans hsmall (by decide)

/-- The scan settles on the least free frame of the pool. -/
theorem allocIdx_least {p : Nat} (hp : p < s.totalPages) (hf : isFree s p = true)
    (hleast : ∀ q, q < p → isFree s q = false) : allocIdx s = some p := by
  cases h : allocIdx s with
  | none => exact absurd (allocIdx_none hsmall h p hp) (by rw [hf]; decide)
  | some q =>
    obtain ⟨_, hq, hbefore⟩ := scan_some (by decide) _ _ _ _ _ (by simp) h
    congr 1
    by_cases hlt : q < p
    · exact absurd (hleast q hlt) (by rw [isFree, hq]; decide)
    by_cases hgt : p < q
    · exact absurd (hbefore p hgt) (by rw [isFree] at hf; rw [hf]; decide)
    · omega

theorem allocIdx_eq_none_iff : allocIdx s = none ↔ count s.pageBitmap s.totalPages = 0 := by
  cases h : allocIdx s with
  | none =>
    have hall := allocIdx_none hsmall h
    have hzero : ¬ 0 < count s.pageBitmap s.totalPages := by
      rw [count_pos_iff]
      intro hex
      obtain ⟨p, hp, ht⟩ := hex
      exact absurd (hall p hp) (by rw [isFree, ht]; decide)
    simp only [true_iff]
    omega
  | some p =>
    obtain ⟨hp, hf⟩ := allocIdx_some h
    have hpos := (count_pos_iff s.pageBitmap s.totalPages).mpr ⟨p, hp, hf⟩
    simp only [reduceCtorEq, false_iff]
    omega

end

/-! ### Counting the pool -/

def Counted (s : Frames) : Prop :=
  s.totalPages ≤ maxPages ∧ s.freePages.toNat = Bitmap.count s.pageBitmap s.totalPages

/-- Taking a free frame of the pool, or returning a used one, keeps the count. -/
theorem Counted.take {s : Frames} (h : Counted s) {p : Nat} (hp : p < s.totalPages)
    (hf : isFree s p = true) :
    (s.freePages - 1#32).toNat = count (clear s.pageBitmap p) s.totalPages := by
  have hc := count_clear (by decide) s.pageBitmap hp hf
  have := h.2
  bv_omega

theorem Counted.give {s : Frames} (h : Counted s) {p : Nat} (hp : p < s.totalPages)
    (hf : isFree s p = false) :
    (s.freePages + 1#32).toNat = count (set s.pageBitmap p) s.totalPages := by
  have hc := count_set (by decide) s.pageBitmap hp hf
  have hle := count_le s.pageBitmap s.totalPages
  have hmax : maxPages = 131072 := rfl
  have := h.1
  have := h.2
  bv_omega

/-! ### Initialization -/

theorem reserveFrom_counted (n i : Nat) (s : Frames) (h : Counted s) :
    Counted (reserveFrom s n i) := by
  induction n generalizing s i with
  | zero => exact h
  | succ n ih =>
    simp only [reserveFrom]
    split
    case isFalse => exact h
    case isTrue hi =>
      apply ih
      split
      case isFalse => exact h
      case isTrue hf => exact ⟨h.1, h.take hi hf⟩

theorem freeFrom_counted (n a : Nat) (s : Frames) (h : Counted s) : Counted (freeFrom s n a) := by
  induction n generalizing s a with
  | zero => exact h
  | succ n ih =>
    simp only [freeFrom]
    split
    case isTrue => exact h
    case isFalse hp =>
      apply ih
      split
      case isTrue => exact h
      case isFalse hf =>
        exact ⟨h.1, h.give (Nat.lt_of_not_ge hp) (Bool.eq_false_iff.mpr hf)⟩

theorem freeRegion_counted (s : Frames) (r : MmapEntry) (h : Counted s) :
    Counted (freeRegion s r) := by
  unfold freeRegion
  split
  · exact h
  · exact freeFrom_counted _ _ s h

theorem foldl_freeRegion_counted (mmap : List MmapEntry) (s : Frames) (h : Counted s) :
    Counted (mmap.foldl freeRegion s) := by
  induction mmap generalizing s with
  | nil => exact h
  | cons r rest ih => exact ih _ (freeRegion_counted s r h)

/-- Initialization writes the bitmap and the counters only. -/
theorem reserveFrom_tables (n i : Nat) (s : Frames) :
    (reserveFrom s n i).pageRefcount = s.pageRefcount ∧
      (reserveFrom s n i).pagePinned = s.pagePinned ∧
      (reserveFrom s n i).totalPages = s.totalPages := by
  induction n generalizing s i with
  | zero => exact ⟨rfl, rfl, rfl⟩
  | succ n ih =>
    simp only [reserveFrom]
    split
    case isFalse => exact ⟨rfl, rfl, rfl⟩
    case isTrue =>
      have := ih (i + 1) (if test s.pageBitmap i then
          {s with pageBitmap := clear s.pageBitmap i, freePages := s.freePages - 1#32}
        else s)
      refine ⟨this.1.trans ?_, this.2.1.trans ?_, this.2.2.trans ?_⟩ <;> split <;> rfl

theorem freeFrom_tables (n a : Nat) (s : Frames) : (freeFrom s n a).pageRefcount = s.pageRefcount ∧
      (freeFrom s n a).pagePinned = s.pagePinned := by
  induction n generalizing s a with
  | zero => exact ⟨rfl, rfl⟩
  | succ n ih =>
    simp only [freeFrom]
    split
    case isTrue => exact ⟨rfl, rfl⟩
    case isFalse =>
      refine ⟨(ih _ _).1.trans ?_, (ih _ _).2.trans ?_⟩ <;> split <;> rfl

theorem foldl_freeRegion_tables (mmap : List MmapEntry) (s : Frames) :
    (mmap.foldl freeRegion s).pageRefcount = s.pageRefcount ∧
      (mmap.foldl freeRegion s).pagePinned = s.pagePinned := by
  induction mmap generalizing s with
  | nil => exact ⟨rfl, rfl⟩
  | cons r rest ih =>
    have hr : (freeRegion s r).pageRefcount = s.pageRefcount ∧
        (freeRegion s r).pagePinned = s.pagePinned := by
      unfold freeRegion
      split
      · exact ⟨rfl, rfl⟩
      · exact freeFrom_tables _ _ s
    exact ⟨(ih _).1.trans hr.1, (ih _).2.trans hr.2⟩

/-- Reserving `[i, i + n)` takes exactly the pages of the pool in that range. -/
theorem reserveFrom_isFree (n i : Nat) (s : Frames) (p : Nat) : isFree (reserveFrom s n i) p =
      (isFree s p && !decide (i ≤ p ∧ p < i + n ∧ p < s.totalPages)) := by
  induction n generalizing s i with
  | zero =>
    have : decide (i ≤ p ∧ p < i + 0 ∧ p < s.totalPages) = false := by
      rw [decide_eq_false_iff_not]
      omega
    rw [this, reserveFrom, Bool.not_false, Bool.and_true]
  | succ n ih =>
    simp only [reserveFrom]
    split
    case isFalse hi =>
      have : ¬ (i ≤ p ∧ p < i + (n + 1) ∧ p < s.totalPages) := by omega
      simp [this]
    case isTrue hi =>
      rw [ih]
      split
      case isTrue hf =>
        show (test (clear s.pageBitmap i) p && _) = _
        rw [isFree_clear]
        by_cases he : p = i
        · have : i ≤ p ∧ p < i + (n + 1) ∧ p < s.totalPages := by omega
          simp [he] at this ⊢
          simp [hi]
        · have : (i + 1 ≤ p ∧ p < i + 1 + n ∧ p < s.totalPages) ↔
              (i ≤ p ∧ p < i + (n + 1) ∧ p < s.totalPages) := by omega
          simp only [this, decide_eq_false he, Bool.not_false, Bool.true_and]
      case isFalse hf =>
        by_cases he : p = i
        · have : isFree s p = false := by rw [he]; exact Bool.eq_false_iff.mpr hf
          simp [this]
        have : (i + 1 ≤ p ∧ p < i + 1 + n ∧ p < s.totalPages) ↔
            (i ≤ p ∧ p < i + (n + 1) ∧ p < s.totalPages) := by omega
        simp only [this]

/-- Reserving at least one page reserves page 0, the `NULL` guard. -/
theorem reserveLowPages_guard (s : Frames) (endPage : Nat) (he : 0 < endPage)
    (ht : 0 < s.totalPages) : isFree (reserveLowPages s endPage) 0 = false := by
  rw [reserveLowPages, reserveFrom_isFree]
  simp [he, ht]

variable {boot s : Frames} (k : KernelImage) (memSize : BitVec 64)

theorem KernelImage.endPage_pos : 0 < k.endPage := by
  have hl := k.loaded
  have hh := k.low
  simp only [KernelImage.endPage, pageSize]
  omega

theorem count_allOnes (n : Nat) : count (fun _ => BitVec.allOnes 32) n = n := by
  have hall : ∀ p ∈ Finset.range n, test (fun _ => BitVec.allOnes 32) p = true := by
    intro p _
    rw [test_eq (by decide), BitVec.getLsbD_allOnes]
    simp only [decide_eq_true_eq]
    omega
  rw [count, Finset.filter_true_of_mem hall, Finset.card_range]

theorem count_zero (n : Nat) : count (fun _ => 0#32) n = 0 := by
  have hnone : ∀ p ∈ Finset.range n, ¬ test (fun _ => 0#32) p = true := by
    intro p _
    simp [test]
  rw [count, Finset.filter_false_of_mem hnone, Finset.card_empty]

/-- What both initialization paths establish. -/
structure Booted (s : Frames) : Prop where
  counted : Counted s
  guard : 0 < s.totalPages → isFree s 0 = false
  untracked : ∀ p, s.pageRefcount p = 0#8
  unpinned : ∀ p, s.pagePinned p = false

theorem booted_reserve {s : Frames} (hc : Counted s) (hr : s.pageRefcount = fun _ => 0#8)
    (hp : s.pagePinned = fun _ => false) (endPage : Nat) (he : 0 < endPage) :
    Booted (reserveLowPages s endPage) := by
  obtain ⟨hrc, hpin, htot⟩ := reserveFrom_tables endPage 0 s
  refine ⟨reserveFrom_counted _ _ s hc, ?_, ?_, ?_⟩
  · intro ht
    exact reserveLowPages_guard s endPage he (by rwa [reserveLowPages, htot] at ht)
  · intro p
    rw [reserveLowPages, hrc, hr]
  · intro p
    rw [reserveLowPages, hpin, hp]

theorem initMemory_booted (mmap : List MmapEntry) : Booted (initMemory k memSize mmap) := by
  cases mmap with
  | nil =>
    have hmin : min (memSize.toNat / pageSize % 2 ^ 32) maxPages ≤ maxPages := Nat.min_le_right _ _
    have hmax : maxPages = 131072 := rfl
    apply booted_reserve _ rfl rfl _ k.endPage_pos
    refine ⟨hmin, ?_⟩
    rw [count_allOnes, BitVec.toNat_ofNat]
    exact Nat.mod_eq_of_lt (by omega)
  | cons r rest =>
    simp only [initMemory]
    have hmin : min ((ramTop (r :: rest)).toNat / pageSize % 2 ^ 32) maxPages ≤ maxPages :=
      Nat.min_le_right _ _
    apply booted_reserve
    · apply foldl_freeRegion_counted
      refine ⟨hmin, ?_⟩
      rw [count_zero]
      rfl
    · exact (foldl_freeRegion_tables (r :: rest) _).1
    · exact (foldl_freeRegion_tables (r :: rest) _).2
    · split
      · exact k.endPage_pos
      · decide

/-- Without a firmware map everything is free but the image and what lies below it. -/
theorem initMemory_nil_isFree (p : Nat) : isFree (initMemory k memSize []) p =
      !decide (p < k.endPage ∧ p < min (memSize.toNat / pageSize % 2 ^ 32) maxPages) := by
  have hones : test (fun _ => BitVec.allOnes 32) p = true := by
    rw [test_eq (by decide), BitVec.getLsbD_allOnes, decide_eq_true_eq]
    exact Nat.mod_lt _ (by decide)
  have hiff : (0 ≤ p ∧ p < 0 + k.endPage ∧ p < min (memSize.toNat / pageSize % 2 ^ 32) maxPages) ↔
      (p < k.endPage ∧ p < min (memSize.toNat / pageSize % 2 ^ 32) maxPages) := by
    omega
  rw [initMemory, reserveLowPages, reserveFrom_isFree, decide_eq_decide.mpr hiff]
  show (test (fun _ => BitVec.allOnes 32) p && _) = _
  rw [hones, Bool.true_and]

theorem initMemory_nil_total :
    (initMemory k memSize []).totalPages = min (memSize.toNat / pageSize % 2 ^ 32) maxPages := by
  rw [initMemory, reserveLowPages, (reserveFrom_tables _ _ _).2.2]

/-! ### Coherence -/

/-- The allocator `s` some calls after `boot`. -/
structure Coherent (boot s : Frames) : Prop where
  total : s.totalPages = boot.totalPages
  guard : 0 < s.totalPages → isFree boot 0 = false
  counted : Counted s
  pool : ∀ p, s.pageRefcount p ≠ 0#8 → p < s.totalPages
  tracked : ∀ p, isFree boot p = true → (isFree s p = true ↔ s.pageRefcount p = 0#8)
  reserved : ∀ p, isFree boot p = false → isFree s p = false ∧ s.pageRefcount p = 0#8

theorem Booted.coherent {s : Frames} (h : Booted s) : Coherent s s := by
  refine ⟨rfl, h.guard, h.counted, fun p hp => absurd (h.untracked p) hp, ?_, ?_⟩
  · intro p hp
    simp [hp, h.untracked p]
  · intro p hp
    exact ⟨hp, h.untracked p⟩

/-- A frame with a reference was free at boot and is not now. -/
theorem Coherent.used (h : Coherent boot s) {p : Nat} (hp : s.pageRefcount p ≠ 0#8) :
    isFree boot p = true ∧ isFree s p = false := by
  cases hb : isFree boot p with
  | false => exact absurd (h.reserved p hb).2 hp
  | true =>
    refine ⟨rfl, ?_⟩
    cases hf : isFree s p with
    | false => rfl
    | true => exact absurd ((h.tracked p hb).mp hf) hp

theorem Coherent.free (h : Coherent boot s) {p : Nat} (hp : isFree s p = true) :
    isFree boot p = true ∧ s.pageRefcount p = 0#8 := by
  cases hb : isFree boot p with
  | false => exact absurd hp (by rw [(h.reserved p hb).1]; decide)
  | true => exact ⟨rfl, (h.tracked p hb).mp hp⟩

theorem coherent_alloc {boot s : Frames} (h : Coherent boot s) : Coherent boot (allocPage s).2 := by
  cases ha : allocIdx s with
  | none => rwa [allocPage_none ha]
  | some p =>
    obtain ⟨hp, hf⟩ := allocIdx_some ha
    obtain ⟨hb, _⟩ := h.free hf
    refine ⟨by rw [allocPage_total, h.total], by rw [allocPage_total]; exact h.guard, ?_, ?_, ?_, ?_⟩
    · rw [allocPage_some ha]
      exact ⟨h.counted.1, h.counted.take hp hf⟩
    · intro q hq
      simp only [allocPage_refcount, ha, Option.some.injEq] at hq
      rw [allocPage_total]
      by_cases he : p = q
      · exact he ▸ hp
      rw [if_neg he] at hq
      exact h.pool q hq
    · intro q hq
      simp only [allocPage_refcount, allocPage_isFree, ha, Option.some.injEq]
      by_cases he : p = q
      · simp [he]
      · simpa [he] using h.tracked q hq
    · intro q hq
      have he : p ≠ q := fun he => absurd (he ▸ hb) (by rw [hq]; decide)
      simp only [allocPage_refcount, allocPage_isFree, ha, Option.some.injEq, if_neg he]
      simpa [he] using h.reserved q hq

/-- Changing the count of a referenced frame to another positive count. -/
theorem Coherent.setRefcount {boot s t : Frames} (h : Coherent boot s) {p : Nat}
    (ht : t.totalPages = s.totalPages) (hcount : Counted t) (hfree : isFree t = isFree s)
    (hp : s.pageRefcount p ≠ 0#8) (hc : t.pageRefcount p ≠ 0#8)
    (hother : ∀ q, q ≠ p → t.pageRefcount q = s.pageRefcount q) : Coherent boot t := by
  obtain ⟨hb, hf⟩ := h.used hp
  refine ⟨by rw [ht, h.total], by rw [ht]; exact h.guard, hcount, ?_, ?_, ?_⟩
  · intro q hq
    rw [ht]
    by_cases he : q = p
    · exact he ▸ h.pool p hp
    · exact h.pool q (hother q he ▸ hq)
  · intro q hq
    rw [hfree]
    by_cases he : q = p
    · simp [he, hf, hc]
    rw [hother q he]
    exact h.tracked q hq
  · intro q hq
    have he : q ≠ p := fun he => absurd (he ▸ hb) (by rw [hq]; decide)
    rw [hfree, hother q he]
    exact h.reserved q hq

theorem coherent_pin (h : Coherent boot s) (addr : Nat) : Coherent boot (pagePin s addr) := by
  unfold pagePin
  split
  · exact ⟨h.total, h.guard, h.counted, h.pool, h.tracked, h.reserved⟩
  · exact h

theorem coherent_incref (h : Coherent boot s) (addr : Nat)
    (ht : s.pageRefcount (pageIdx addr) ≠ 0#8) : Coherent boot (pageIncref s addr) := by
  apply h.setRefcount (p := pageIdx addr) (pageIncref_total s addr) _ (pageIncref_isFree s addr) ht
  · rw [pageIncref_refcount]
    split
    case isTrue hlt => bv_omega
    case isFalse => exact ht
  · intro q hq
    rw [pageIncref_refcount]
    simp [hq]
  · unfold pageIncref
    simp only
    split <;> [exact h.counted; split <;> exact h.counted]

theorem coherent_free {boot s : Frames} (h : Coherent boot s) (addr : Nat)
    (ht : s.pageRefcount (pageIdx addr) ≠ 0#8) : Coherent boot (freePage s addr) := by
  obtain ⟨hb, hf⟩ := h.used ht
  have hp := h.pool _ ht
  have hother : ∀ q, q ≠ pageIdx addr → (freePage s addr).pageRefcount q = s.pageRefcount q := by
    intro q hq
    rw [freePage_refcount]
    simp [hq]
  by_cases hlast : ¬ s.pageRefcount (pageIdx addr) > 1#8 ∧ s.pagePinned (pageIdx addr) = false
  · -- the last reference to an unpinned frame: the frame returns to the pool
    have hcount : Counted (freePage s addr) := by
      have hge : ¬ pageIdx addr ≥ s.totalPages := by omega
      simp only [freePage, hge, hlast.1, hlast.2, if_false, Bool.false_eq_true]
      exact ⟨h.counted.1, h.counted.give hp hf⟩
    refine ⟨by rw [freePage_total, h.total], by rw [freePage_total]; exact h.guard, hcount,
      ?_, ?_, ?_⟩
    · intro q hq
      rw [freePage_total]
      by_cases he : q = pageIdx addr
      · exact he ▸ hp
      · exact h.pool q (hother q he ▸ hq)
    · intro q hq
      rw [freePage_isFree]
      by_cases he : q = pageIdx addr
      · rw [he, freePage_refcount]
        simp [hp, hlast]
      rw [hother q he]
      simpa [he] using h.tracked q hq
    · intro q hq
      have he : q ≠ pageIdx addr := fun he => absurd (he ▸ hb) (by rw [hq]; decide)
      rw [hother q he, freePage_isFree]
      simpa [he] using h.reserved q hq
  · apply h.setRefcount (p := pageIdx addr) (freePage_total s addr) _ _ ht _ hother
    · unfold freePage
      simp only
      split
      · exact h.counted
      split
      · exact h.counted
      split
      · exact h.counted
      case isFalse hr hpin =>
        exact absurd ⟨hr, Bool.eq_false_iff.mpr hpin⟩ hlast
    · funext q
      rw [freePage_isFree]
      by_cases he : q = pageIdx addr
      · have : decide (q = pageIdx addr ∧ q < s.totalPages ∧ ¬ s.pageRefcount q > 1#8 ∧
            s.pagePinned q = false) = false := by
          rw [decide_eq_false_iff_not, he]
          exact fun hx => hlast ⟨hx.2.2.1, hx.2.2.2⟩
        rw [this, Bool.or_false]
      · simp [he]
    · rw [freePage_refcount, if_pos ⟨rfl, hp⟩]
      split
      case isTrue hgt => bv_omega
      case isFalse hle =>
        cases hpin : s.pagePinned (pageIdx addr) with
        | true => simp
        | false => exact absurd ⟨hle, hpin⟩ hlast

theorem coherent_step {boot : Frames} (s : Frames) (op : Op) (h : Coherent boot s)
    (ht : Tracked s op) : Coherent boot (step s op) := by
  cases op with
  | alloc => exact coherent_alloc h
  | pin addr => exact coherent_pin h addr
  | incref addr => exact coherent_incref h addr ht
  | free addr => exact coherent_free h addr ht

theorem coherent_run (mmap : List MmapEntry) (ops : List Op)
    (h : Admissible step Tracked (initMemory k memSize mmap) ops) :
    Coherent (initMemory k memSize mmap) (run step (initMemory k memSize mmap) ops) :=
  run_invariant coherent_step _ ops (initMemory_booted k memSize mmap).coherent h

/-! ### Allocation under coherence -/

/-- Page 0 is never tracked, so the address of a tracked frame is not `NULL`. -/
theorem Coherent.pos (h : Coherent boot s) {p : Nat} (hp : isFree boot p = true)
    (hlt : p < s.totalPages) : 0 < p := by
  apply Nat.pos_of_ne_zero
  intro hz
  rw [hz] at hp hlt
  exact absurd (h.guard hlt) (by rw [hp]; decide)

/-- `alloc_page` returns `NULL` when the scan finds nothing, and only then. -/
theorem Coherent.allocPage_null (h : Coherent boot s) :
    (allocPage s).1 = 0 ↔ allocIdx s = none := by
  cases ha : allocIdx s with
  | none => simp [allocPage_none ha]
  | some p =>
    obtain ⟨hp, hf⟩ := allocIdx_some ha
    have hpos := h.pos (h.free hf).1 hp
    rw [allocPage_some ha]
    simp only [reduceCtorEq, iff_false, pageSize]
    omega

theorem Coherent.allocPage_free (h : Coherent boot s) {p : Nat}
    (ha : (allocPage s).1 = p * pageSize) (hp : 0 < p) :
    p < s.totalPages ∧ s.pageRefcount p = 0#8 := by
  cases hi : allocIdx s with
  | none =>
    rw [allocPage_none hi] at ha
    simp only [pageSize] at ha
    omega
  | some q =>
    obtain ⟨hq, hf⟩ := allocIdx_some hi
    rw [allocPage_some hi] at ha
    have hqp : q = p := Nat.eq_of_mul_eq_mul_right (by decide) ha
    rw [← hqp]
    exact ⟨hq, (h.free hf).2⟩

theorem pinned_step (s : Frames) (op : Op) (p : Nat)
    (h : s.pagePinned p = true ∧ s.pageRefcount p ≠ 0#8) :
    (step s op).pagePinned p = true ∧ (step s op).pageRefcount p ≠ 0#8 := by
  obtain ⟨hpin, href⟩ := h
  cases op with
  | alloc =>
    simp only [step, allocPage_pinned, allocPage_refcount]
    refine ⟨hpin, ?_⟩
    split
    · decide
    · exact href
  | pin addr =>
    simp only [step, pagePin_refcount, pagePin_pinned, hpin, Bool.true_or]
    exact ⟨trivial, href⟩
  | incref addr =>
    simp only [step, pageIncref_pinned, pageIncref_refcount]
    refine ⟨hpin, ?_⟩
    split
    case isTrue hlt => bv_omega
    case isFalse => exact href
  | free addr =>
    simp only [step, freePage_pinned, freePage_refcount, hpin, if_true]
    refine ⟨trivial, ?_⟩
    split
    · split
      case isTrue hgt => bv_omega
      case isFalse => decide
    · exact href

/-- **Allocator coherence.** From initialization on any firmware map (or none), after any
calls that add and drop references only on frames that have one: the free count is the
number of set bits of the pool; a frame free at boot is free exactly when its count is 0;
`alloc_page` fails exactly when nothing is free and otherwise returns a frame of the pool
that had no reference; and a pinned frame in use is never handed out again. -/
theorem allocator_coherence (k : KernelImage) (memSize : BitVec 64) (mmap : List MmapEntry)
    (ops : List Op) (hops : Admissible step Tracked (initMemory k memSize mmap) ops) (s : Frames)
    (hs : s = run step (initMemory k memSize mmap) ops) :
    s.freePages.toNat = Bitmap.count s.pageBitmap s.totalPages ∧
      (∀ p, isFree (initMemory k memSize mmap) p = true →
        (isFree s p = true ↔ s.pageRefcount p = 0#8)) ∧
      ((allocPage s).1 = 0 ↔ s.freePages = 0#32) ∧
      ((allocPage s).1 ≠ 0 →
        ∃ p, p < s.totalPages ∧ (allocPage s).1 = p * pageSize ∧ s.pageRefcount p = 0#8) ∧
      ∀ p, s.pagePinned p = true → s.pageRefcount p ≠ 0#8 →
        ∀ later, Admissible step Tracked s later →
          (allocPage (run step s later)).1 ≠ p * pageSize := by
  have h : Coherent (initMemory k memSize mmap) s := by
    rw [hs]
    exact coherent_run k memSize mmap ops hops
  refine ⟨h.counted.2, h.tracked, ?_, ?_, ?_⟩
  · rw [h.allocPage_null, allocIdx_eq_none_iff h.counted.1, ← h.counted.2]
    exact ⟨fun hz => BitVec.eq_of_toNat_eq hz, fun hz => by rw [hz]; rfl⟩
  · intro hne
    cases ha : allocIdx s with
    | none => exact absurd (h.allocPage_null.mpr ha) hne
    | some p =>
      obtain ⟨hp, hf⟩ := allocIdx_some ha
      exact ⟨p, hp, by rw [allocPage_some ha], (h.free hf).2⟩
  · intro p hpin href later hlater hret
    have hlate := run_invariant coherent_step s later h hlater
    have hkept := run_invariant (fun t op ht _ => pinned_step t op p ht) s later ⟨hpin, href⟩ hlater
    have hpos : 0 < p := h.pos (h.used href).1 (h.pool p href)
    exact hkept.2 (hlate.allocPage_free hret hpos).2

/-- The smallest image the linker script allows: 1 MiB of reserved low memory. -/
def smallestImage : KernelImage := ⟨0x100000, Nat.le_refl _, by decide⟩

/-- A boot without a firmware map and 258 pages of RAM: frames 256 and 257 are free. -/
def twoFrames : Frames := initMemory smallestImage 0x102000#64 []

theorem twoFrames_isFree (p : Nat) : isFree twoFrames p = !decide (p < 256) := by
  have htotal : min ((0x102000#64).toNat / pageSize % 2 ^ 32) maxPages = 258 := by decide
  have hend : smallestImage.endPage = 256 := by decide
  have hiff : (p < 256 ∧ p < 258) ↔ p < 256 := by omega
  rw [twoFrames, initMemory_nil_isFree, htotal, hend, decide_eq_decide.mpr hiff]

theorem twoFrames_total : twoFrames.totalPages = 258 := by
  rw [twoFrames, initMemory_nil_total]
  decide

theorem twoFrames_alloc : allocIdx twoFrames = some 256 := by
  apply allocIdx_least
  · rw [twoFrames_total]
    decide
  · rw [twoFrames_total]
    decide
  · rw [twoFrames_isFree]
    decide
  · intro q hq
    rw [twoFrames_isFree]
    simp [hq]

def shareAndDrop : List Op := [.alloc, .incref 0x100000, .pin 0x100000, .free 0x100000]

theorem shareAndDrop_tracked (s : Frames) (h : allocIdx s = some 256) :
    Admissible step Tracked s shareAndDrop := by
  have hidx : pageIdx 0x100000 = 256 := by decide
  have halloc : (step s .alloc).pageRefcount 256 = 1#8 := by
    simp only [step, allocPage_refcount, h, if_true]
  refine ⟨trivial, ?_, trivial, ?_, trivial⟩
  · simp only [Tracked, hidx, halloc]
    decide
  · simp only [Tracked, hidx, step, pagePin_refcount, pageIncref_refcount]
    rw [show (allocPage s).2.pageRefcount 256 = 1#8 from halloc]
    split <;> decide

theorem allocator_coherence_two_frames :
    Admissible step Tracked (initMemory smallestImage 0x102000#64 []) shareAndDrop ∧
      ((allocPage (run step (initMemory smallestImage 0x102000#64 []) shareAndDrop)).1 = 0 ↔
        (run step (initMemory smallestImage 0x102000#64 []) shareAndDrop).freePages = 0#32) := by
  have hops := shareAndDrop_tracked (initMemory smallestImage 0x102000#64 []) twoFrames_alloc
  exact ⟨hops, (allocator_coherence smallestImage 0x102000#64 [] _ hops _ rfl).2.2.1⟩

/-- What was not free after initialization is never handed out. -/
theorem reserved_kept (k : KernelImage) (memSize : BitVec 64) (mmap : List MmapEntry)
    (ops : List Op) (hops : Admissible step Tracked (initMemory k memSize mmap) ops) {p : Nat}
    (hp : isFree (initMemory k memSize mmap) p = false) :
    isFree (run step (initMemory k memSize mmap) ops) p = false ∧
      allocIdx (run step (initMemory k memSize mmap) ops) ≠ some p := by
  have hkept := ((coherent_run k memSize mmap ops hops).reserved p hp).1
  exact ⟨hkept, fun ha => absurd (allocIdx_some ha).2 (by rw [hkept]; decide)⟩

theorem reserved_kept_image : allocIdx (run step twoFrames shareAndDrop) ≠ some 255 :=
  (reserved_kept smallestImage 0x102000#64 [] _ (shareAndDrop_tracked _ twoFrames_alloc)
    (twoFrames_isFree 255)).2

end Nyx.Memory
