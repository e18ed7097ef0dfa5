import Nyx.Memory.Coherence

/-! References are conserved as long as no counter is full.

The account beside the allocator notes, for every frame handed out, how many references were
added and dropped since then; what is left is the number of mappings. A caller that adds a
reference for every extra mapping and drops one for every mapping it gives up obeys `Mapped`,
with at most `maxProcesses` mappings of a frame. The 8-bit counter saturates at 255, below that
bound: from the 256th mapping on, the frame returns to the pool early
(`full_counter_frees_mapped_frame`). With no reference added to a full counter (`Unfilled`) an
unpinned frame is free again only when every mapping is gone (`references_conserved`). -/
namespace Nyx.Memory
open Nyx.Lib

def maxProcesses : Nat := 512

/-- References added to and dropped from a frame since it was handed out. -/
structure Given where
  increfs : Nat
  frees : Nat
deriving DecidableEq, Repr

/-- The mappings that are left: one from the allocation and one for each reference added. -/
def Given.mappings (g : Given) : Nat := 1 + g.increfs - g.frees

/-- The allocator and, for every frame handed out so far, what it was given since. -/
structure Account where
  frames : Frames
  given : Nat → Option Given

def Account.open (s : Frames) : Account := ⟨s, fun _ => none⟩

def Account.note (a : Account) (p : Nat) (f : Given → Given) : Nat → Option Given :=
  Function.update a.given p ((a.given p).map f)

def Account.step (a : Account) (op : Op) : Account :=
  ⟨Memory.step a.frames op,
    match op with
    | .alloc =>
      match allocIdx a.frames with
      | none => a.given
      | some p => Function.update a.given p (some ⟨0, 0⟩)
    | .pin _ => a.given
    | .incref addr => a.note (pageIdx addr) fun g => ⟨g.increfs + 1, g.frees⟩
    | .free addr => a.note (pageIdx addr) fun g => ⟨g.increfs, g.frees + 1⟩⟩

/-- A reference is added to a frame some process maps and a further one may, and dropped
from a frame some process maps. -/
def Mapped (a : Account) : Op → Prop
  | .incref addr => ∃ g, a.given (pageIdx addr) = some g ∧ 0 < g.mappings ∧
      g.mappings < maxProcesses
  | .free addr => ∃ g, a.given (pageIdx addr) = some g ∧ 0 < g.mappings
  | _ => True

/-- No reference is added to a full counter. -/
def Unfilled (a : Account) : Op → Prop
  | .incref addr => a.frames.pageRefcount (pageIdx addr) < 255#8
  | _ => True

/-- An unpinned frame that was handed out is free again only when it has been given as many
`free_page` calls as it had references: never while some process maps it. -/
def Conserved (a : Account) : Prop :=
  ∀ p g, a.given p = some g → a.frames.pagePinned p = false → isFree a.frames p = true →
    g.frees = 1 + g.increfs

/-! ### The account follows the counter -/

/-- The counter of an unpinned frame is its number of mappings, and no counter of a mapped
frame is 0. -/
structure Balanced (boot : Frames) (a : Account) : Prop where
  coherent : Coherent boot a.frames
  bounded : ∀ p g, a.given p = some g → g.frees ≤ 1 + g.increfs
  exact : ∀ p g, a.given p = some g → a.frames.pagePinned p = false →
    (a.frames.pageRefcount p).toNat = g.mappings
  mapped : ∀ p g, a.given p = some g → 0 < g.mappings → a.frames.pageRefcount p ≠ 0#8

variable {a : Account} {boot : Frames} {addr : Nat} {g : Given} {s : Frames} {r : Nat}

theorem balanced_open (h : Booted s) : Balanced s (Account.open s) := by
  refine ⟨h.coherent, ?_, ?_, ?_⟩ <;> intro p g hg <;> simp [Account.open] at hg

theorem Balanced.conserved (h : Balanced boot a) : Conserved a := by
  intro p g hg hpin hfree
  have hzero := (h.coherent.free hfree).2
  have hexact := h.exact p g hg hpin
  have hbound := h.bounded p g hg
  rw [hzero] at hexact
  simp only [Given.mappings, BitVec.toNat_zero] at hexact
  omega

theorem Balanced.tracked (h : Balanced boot a) (op : Op) (hm : Mapped a op) :
    Tracked a.frames op := by
  cases op with
  | alloc => trivial
  | pin addr => trivial
  | incref addr =>
    obtain ⟨g, hg, hpos, _⟩ := hm
    exact h.mapped _ g hg hpos
  | free addr =>
    obtain ⟨g, hg, hpos⟩ := hm
    exact h.mapped _ g hg hpos

theorem given_alloc {p : Nat} (ha : allocIdx a.frames = some p) (q : Nat) :
    (a.step .alloc).given q = if q = p then some ⟨0, 0⟩ else a.given q := by
  simp only [Account.step, ha, Function.update_apply]

/-- A note changes the entry of its own frame only. -/
theorem note_apply (a : Account) (p q : Nat) (f : Given → Given) :
    a.note p f q = if q = p then (a.given q).map f else a.given q := by
  by_cases hq : q = p
  · subst hq
    simp [Account.note]
  · simp [Account.note, hq]

theorem given_incref (a : Account) (addr q : Nat) : (a.step (.incref addr)).given q =
      if q = pageIdx addr then (a.given q).map fun g => ⟨g.increfs + 1, g.frees⟩ else a.given q :=
  note_apply a _ q _

theorem given_free (a : Account) (addr q : Nat) : (a.step (.free addr)).given q =
      if q = pageIdx addr then (a.given q).map fun g => ⟨g.increfs, g.frees + 1⟩ else a.given q :=
  note_apply a _ q _

theorem balanced_alloc (h : Balanced boot a) : Balanced boot (a.step .alloc) := by
  cases ha : allocIdx a.frames with
  | none =>
    have hsame : a.step .alloc = a := by
      simp only [Account.step, Memory.step, allocPage_none ha, ha]
    rwa [hsame]
  | some p =>
    have hrc : ∀ q, (a.step .alloc).frames.pageRefcount q =
        if q = p then 1#8 else a.frames.pageRefcount q := by
      intro q
      show (allocPage a.frames).2.pageRefcount q = _
      simp only [allocPage_refcount, ha, Option.some.injEq, eq_comm]
    refine ⟨coherent_alloc h.coherent, ?_, ?_, ?_⟩
    · intro q g hg
      rw [given_alloc ha] at hg
      split at hg
      · cases hg
        decide
      · exact h.bounded q g hg
    · intro q g hg hpin
      rw [given_alloc ha] at hg
      rw [hrc]
      split at hg
      case isTrue he =>
        cases hg
        simp [he, Given.mappings]
      case isFalse he =>
        rw [if_neg he]
        exact h.exact q g hg (by simpa [Account.step, Memory.step] using hpin)
    · intro q g hg hpos
      rw [given_alloc ha] at hg
      rw [hrc]
      split
      · decide
      case isFalse he =>
        rw [if_neg he] at hg
        exact h.mapped q g hg hpos

theorem balanced_pin (h : Balanced boot a) (addr : Nat) : Balanced boot (a.step (.pin addr)) := by
  refine ⟨coherent_pin h.coherent addr, h.bounded, ?_, ?_⟩
  · intro q g hg hpin
    simp only [Account.step, Memory.step, pagePin_refcount, pagePin_pinned,
      Bool.or_eq_false_iff] at hpin ⊢
    exact h.exact q g hg hpin.1
  · intro q g hg hpos
    simp only [Account.step, Memory.step, pagePin_refcount]
    exact h.mapped q g hg hpos

theorem balanced_incref (h : Balanced boot a) (addr : Nat) (hm : Mapped a (.incref addr))
    (hu : Unfilled a (.incref addr)) : Balanced boot (a.step (.incref addr)) := by
  have htrack := h.tracked _ hm
  obtain ⟨g₀, hg₀, hpos₀, _⟩ := hm
  have hbound := h.bounded _ g₀ hg₀
  have hfull : a.frames.pageRefcount (pageIdx addr) < 255#8 := hu
  have hrc : ∀ q, (a.step (.incref addr)).frames.pageRefcount q =
      if q = pageIdx addr then a.frames.pageRefcount (pageIdx addr) + 1#8
      else a.frames.pageRefcount q := by
    intro q
    show (pageIncref a.frames addr).pageRefcount q = _
    rw [pageIncref_refcount]
    by_cases he : q = pageIdx addr
    · rw [if_pos ⟨he, he ▸ h.coherent.pool _ htrack, he ▸ hfull⟩, if_pos he, he]
    · rw [if_neg (fun hx => he hx.1), if_neg he]
  refine ⟨coherent_incref h.coherent addr htrack, ?_, ?_, ?_⟩
  · intro q g hg
    rw [given_incref] at hg
    split at hg
    case isTrue he =>
      rw [he, hg₀] at hg
      cases hg
      simp only
      omega
    case isFalse => exact h.bounded q g hg
  · intro q g hg hpin
    have hpin' : a.frames.pagePinned q = false := by
      simpa [Account.step, Memory.step] using hpin
    rw [given_incref] at hg
    rw [hrc]
    split at hg
    case isTrue he =>
      have hexact := h.exact _ g₀ hg₀ (he ▸ hpin')
      rw [he, hg₀] at hg
      cases hg
      rw [if_pos he]
      simp only [Given.mappings] at hexact ⊢
      bv_omega
    case isFalse he =>
      rw [if_neg he]
      exact h.exact q g hg hpin'
  · intro q g hg hpos
    rw [given_incref] at hg
    rw [hrc]
    split
    · bv_omega
    case isFalse he =>
      rw [if_neg he] at hg
      exact h.mapped q g hg hpos

theorem balanced_free (h : Balanced boot a) (addr : Nat) (hm : Mapped a (.free addr)) :
    Balanced boot (a.step (.free addr)) := by
  have htrack := h.tracked _ hm
  obtain ⟨g₀, hg₀, hpos₀⟩ := hm
  have hbound := h.bounded _ g₀ hg₀
  have hnz : a.frames.pageRefcount (pageIdx addr) ≠ 0#8 := htrack
  have hrc : ∀ q, (a.step (.free addr)).frames.pageRefcount q =
      if q = pageIdx addr then
        if a.frames.pageRefcount q > 1#8 then a.frames.pageRefcount q - 1#8
        else if a.frames.pagePinned q then 1#8 else 0#8
      else a.frames.pageRefcount q := by
    intro q
    show (freePage a.frames addr).pageRefcount q = _
    rw [freePage_refcount]
    by_cases he : q = pageIdx addr
    · rw [if_pos ⟨he, he ▸ h.coherent.pool _ htrack⟩, if_pos he]
    · rw [if_neg (fun hx => he hx.1), if_neg he]
  refine ⟨coherent_free h.coherent addr htrack, ?_, ?_, ?_⟩
  · intro q g hg
    rw [given_free] at hg
    split at hg
    case isTrue he =>
      rw [he, hg₀] at hg
      cases hg
      simp only [Given.mappings] at hpos₀ ⊢
      omega
    case isFalse => exact h.bounded q g hg
  · intro q g hg hpin
    have hpin' : a.frames.pagePinned q = false := by
      simpa [Account.step, Memory.step] using hpin
    rw [given_free] at hg
    rw [hrc]
    split at hg
    case isTrue he =>
      subst he
      have hexact := h.exact _ g₀ hg₀ hpin'
      rw [hg₀] at hg
      cases hg
      rw [if_pos rfl, hpin']
      simp only [Given.mappings] at hexact hpos₀ ⊢
      split
      case isTrue hgt => bv_omega
      case isFalse hle =>
        simp only [Bool.false_eq_true, if_false]
        bv_omega
    case isFalse he =>
      rw [if_neg he]
      exact h.exact q g hg hpin'
  · intro q g hg hpos
    rw [given_free] at hg
    rw [hrc]
    split at hg
    case isTrue he =>
      subst he
      rw [hg₀] at hg
      cases hg
      rw [if_pos rfl]
      cases hpin : a.frames.pagePinned (pageIdx addr) with
      | true => split <;> [bv_omega; decide]
      | false =>
        -- another mapping is left, so the counter stood above one
        have hexact := h.exact _ g₀ hg₀ hpin
        simp only [Given.mappings] at hexact hpos
        have hgt : a.frames.pageRefcount (pageIdx addr) > 1#8 := by bv_omega
        rw [if_pos hgt]
        bv_omega
    case isFalse he =>
      rw [if_neg he]
      exact h.mapped q g hg hpos

theorem balanced_step (a : Account) (op : Op) (h : Balanced boot a)
    (hr : Mapped a op ∧ Unfilled a op) : Balanced boot (a.step op) := by
  cases op with
  | alloc => exact balanced_alloc h
  | pin addr => exact balanced_pin h addr
  | incref addr => exact balanced_incref h addr hr.1 hr.2
  | free addr => exact balanced_free h addr hr.1

/-- **Reference conservation.** In every run that adds a reference for every extra mapping
and drops one for every mapping given up, and adds none to a full counter, an unpinned frame
is free again only when all its mappings are gone. -/
theorem references_conserved (k : KernelImage) (memSize : BitVec 64) (mmap : List MmapEntry)
    (ops : List Op)
    (hops : Admissible Account.step (fun a op => Mapped a op ∧ Unfilled a op)
      (Account.open (initMemory k memSize mmap)) ops) :
    Conserved (run Account.step (Account.open (initMemory k memSize mmap)) ops) :=
  (run_invariant balanced_step _ ops (balanced_open (initMemory_booted k memSize mmap))
    hops).conserved

/-! ### A full counter -/

structure Shared (a : Account) (addr : Nat) (g : Given) (r : Nat) : Prop where
  given : a.given (pageIdx addr) = some g
  count : (a.frames.pageRefcount (pageIdx addr)).toNat = r
  unpinned : a.frames.pagePinned (pageIdx addr) = false
  pool : pageIdx addr < a.frames.totalPages

/-- A further reference is noted, but the counter stops at 255. -/
theorem Shared.incref (h : Shared a addr g r) :
    Shared (a.step (.incref addr)) addr ⟨g.increfs + 1, g.frees⟩ (min 255 (r + 1)) := by
  have hcount := h.count
  refine ⟨by rw [given_incref, if_pos rfl, h.given]; rfl, ?_, ?_, ?_⟩
  · show ((pageIncref a.frames addr).pageRefcount (pageIdx addr)).toNat = _
    rw [pageIncref_refcount]
    split
    · bv_omega
    case isFalse hfull =>
      have : ¬ a.frames.pageRefcount (pageIdx addr) < 255#8 := fun hx => hfull ⟨rfl, h.pool, hx⟩
      bv_omega
  · simpa [Account.step, Memory.step] using h.unpinned
  · simpa [Account.step, Memory.step] using h.pool

/-- A dropped reference that is not the counter's last. -/
theorem Shared.free (h : Shared a addr g r) (hr : 1 < r) :
    Shared (a.step (.free addr)) addr ⟨g.increfs, g.frees + 1⟩ (r - 1) := by
  have hcount := h.count
  have hgt : a.frames.pageRefcount (pageIdx addr) > 1#8 := by bv_omega
  refine ⟨by rw [given_free, if_pos rfl, h.given]; rfl, ?_, ?_, ?_⟩
  · show ((freePage a.frames addr).pageRefcount (pageIdx addr)).toNat = _
    rw [freePage_refcount, if_pos ⟨rfl, h.pool⟩, if_pos hgt]
    bv_omega
  · simpa [Account.step, Memory.step] using h.unpinned
  · simpa [Account.step, Memory.step] using h.pool

theorem Shared.increfs (n : Nat) (h : Shared a addr g r) (hpos : g.frees < 1 + g.increfs)
    (hroom : g.mappings + n ≤ maxProcesses) (hr : r ≤ 255) :
    Admissible Account.step Mapped a (List.replicate n (.incref addr)) ∧
      Shared (run Account.step a (List.replicate n (.incref addr))) addr
        ⟨g.increfs + n, g.frees⟩ (min 255 (r + n)) := by
  induction n generalizing a g r with
  | zero => exact ⟨trivial, by rwa [Nat.add_zero, Nat.add_zero, Nat.min_eq_right hr]⟩
  | succ n ih =>
    simp only [Given.mappings] at hroom ih
    obtain ⟨hadm, hrun⟩ := ih h.incref (by simp only; omega) (by simp only; omega) (by omega)
    refine ⟨⟨⟨g, h.given, ?_, ?_⟩, hadm⟩, ?_⟩
    · simp only [Given.mappings]
      omega
    · simp only [Given.mappings]
      omega
    · rw [show g.increfs + (n + 1) = g.increfs + 1 + n by omega,
        show min 255 (r + (n + 1)) = min 255 (min 255 (r + 1) + n) by omega]
      exact hrun

theorem Shared.frees (n : Nat) {r : Nat} (h : Shared a addr g r) (hn : n < r)
    (hpos : g.frees + n ≤ g.increfs) :
    Admissible Account.step Mapped a (List.replicate n (.free addr)) ∧
      Shared (run Account.step a (List.replicate n (.free addr))) addr
        ⟨g.increfs, g.frees + n⟩ (r - n) := by
  induction n generalizing a g r with
  | zero => exact ⟨trivial, h⟩
  | succ n ih =>
    obtain ⟨hadm, hrun⟩ := ih (h.free (by omega)) (by omega) (by simp only; omega)
    refine ⟨⟨⟨g, h.given, ?_⟩, hadm⟩, ?_⟩
    · simp only [Given.mappings]
      omega
    · rw [show g.frees + (n + 1) = g.frees + 1 + n by omega, show r - (n + 1) = r - 1 - n by omega]
      exact hrun

theorem Shared.last (h : Shared a addr g 1) :
    (a.step (.free addr)).given (pageIdx addr) = some ⟨g.increfs, g.frees + 1⟩ ∧
      (a.step (.free addr)).frames.pagePinned (pageIdx addr) = false ∧
      isFree (a.step (.free addr)).frames (pageIdx addr) = true := by
  have hcount := h.count
  have hle : ¬ a.frames.pageRefcount (pageIdx addr) > 1#8 := by bv_omega
  refine ⟨by rw [given_free, if_pos rfl, h.given]; rfl, ?_, ?_⟩
  · simpa [Account.step, Memory.step] using h.unpinned
  · show isFree (freePage a.frames addr) (pageIdx addr) = true
    rw [freePage_isFree]
    simp only [h.pool, hle, h.unpinned, not_false_iff, and_self, decide_true, Bool.or_true]

theorem shared_alloc (ha : allocIdx s = some (pageIdx addr))
    (hp : s.pagePinned (pageIdx addr) = false) :
    Shared ((Account.open s).step .alloc) addr ⟨0, 0⟩ 1 := by
  refine ⟨?_, ?_, ?_, ?_⟩
  · rw [given_alloc ha, if_pos rfl]
  · show ((allocPage s).2.pageRefcount (pageIdx addr)).toNat = 1
    rw [allocPage_refcount, if_pos ha]
    rfl
  · show (allocPage s).2.pagePinned (pageIdx addr) = false
    rw [allocPage_pinned, hp]
  · show pageIdx addr < (allocPage s).2.totalPages
    rw [allocPage_total]
    exact (allocIdx_some ha).1

/-- A frame is allocated, mapped `m` more times, and given up `n + 1` times. -/
def sharing (addr m n : Nat) : List Op :=
  .alloc :: (List.replicate m (.incref addr) ++ (List.replicate n (.free addr) ++ [.free addr]))

/-- With the counter's ceiling reached, one mapping fewer than there are frees the frame. -/
theorem sharing_frees {addr m n : Nat} (ha : allocIdx s = some (pageIdx addr))
    (hp : s.pagePinned (pageIdx addr) = false) (hm : 1 + m ≤ maxProcesses) (hn : n ≤ m)
    (hfull : min 255 (1 + m) = n + 1) :
    Admissible Account.step Mapped (Account.open s) (sharing addr m n) ∧
      (run Account.step (Account.open s) (sharing addr m n)).given (pageIdx addr) =
        some ⟨m, n + 1⟩ ∧
      (run Account.step (Account.open s) (sharing addr m n)).frames.pagePinned (pageIdx addr) =
        false ∧
      isFree (run Account.step (Account.open s) (sharing addr m n)).frames (pageIdx addr) =
        true := by
  obtain ⟨hadm₁, hsh₁⟩ := (shared_alloc ha hp).increfs m (by decide) hm (by decide)
  obtain ⟨hadm₂, hsh₂⟩ := hsh₁.frees n (by omega) (by simp only; omega)
  rw [show min 255 (1 + m) - n = 1 by omega] at hsh₂
  simp only [Nat.zero_add] at hsh₂
  have hrun : run Account.step (Account.open s) (sharing addr m n) =
      (run Account.step (run Account.step ((Account.open s).step .alloc)
        (List.replicate m (.incref addr))) (List.replicate n (.free addr))).step (.free addr) := by
    rw [sharing, run, run_append, run_append]
    rfl
  rw [hrun]
  refine ⟨⟨trivial, ?_⟩, hsh₂.last⟩
  rw [admissible_append, admissible_append]
  refine ⟨hadm₁, hadm₂, ⟨_, hsh₂.given, ?_⟩, trivial⟩
  simp only [Given.mappings]
  omega

/-- The 8-bit counter forgets the 256th mapping: the frame is free again while a process
still maps it. -/
theorem full_counter_frees_mapped_frame :
    ¬ ∀ (k : KernelImage) (memSize : BitVec 64) (mmap : List MmapEntry) (ops : List Op),
      Admissible Account.step Mapped (Account.open (initMemory k memSize mmap)) ops →
        Conserved (run Account.step (Account.open (initMemory k memSize mmap)) ops) := by
  intro hall
  have hidx : pageIdx 0x100000 = 256 := by decide
  have hpin := (initMemory_booted smallestImage 0x102000#64 []).unpinned (pageIdx 0x100000)
  obtain ⟨hadm, hgiven, hunpin, hfree⟩ := sharing_frees (m := 255) (n := 254)
    (hidx ▸ twoFrames_alloc) hpin (by decide) (by decide) (by decide)
  have := hall smallestImage 0x102000#64 [] (sharing 0x100000 255 254) hadm _ _ hgiven hunpin hfree
  exact absurd this (by decide)

/-- Two mappings of one frame, both given up. -/
def shareTwice : List Op := [.alloc, .incref 0x100000, .free 0x100000, .free 0x100000]

theorem shareTwice_lawful (ha : allocIdx s = some (pageIdx 0x100000))
    (hp : s.pagePinned (pageIdx 0x100000) = false) :
    Admissible Account.step (fun a op => Mapped a op ∧ Unfilled a op) (Account.open s)
      shareTwice := by
  have hone := shared_alloc ha hp
  have htwo := hone.incref
  have hback := htwo.free (by decide)
  have hcount := hone.count
  refine ⟨⟨trivial, trivial⟩, ⟨⟨_, hone.given, by decide, by decide⟩, ?_⟩,
    ⟨⟨_, htwo.given, by decide⟩, trivial⟩, ⟨⟨_, hback.given, by decide⟩, trivial⟩, trivial⟩
  show _ < 255#8
  bv_omega

theorem references_conserved_two_mappings :
    Admissible Account.step (fun a op => Mapped a op ∧ Unfilled a op)
        (Account.open (initMemory smallestImage 0x102000#64 [])) shareTwice ∧
      Conserved (run Account.step (Account.open (initMemory smallestImage 0x102000#64 []))
        shareTwice) := by
  have hidx : pageIdx 0x100000 = 256 := by decide
  have hpin := (initMemory_booted smallestImage 0x102000#64 []).unpinned (pageIdx 0x100000)
  have hops := shareTwice_lawful (hidx ▸ twoFrames_alloc) hpin
  exact ⟨hops, references_conserved smallestImage 0x102000#64 [] shareTwice hops⟩

end Nyx.Memory
