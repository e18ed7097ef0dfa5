import Nyx.Paging.Clone

/-! Undoing a clone.

A fork that fails after it has shared pages releases the child's address space. The
parent's pages are then as they were, though some of them stay copy-on-write (`Unforked`). -/
namespace Nyx.Paging
open Lib Machine Vpn

theorem Vpn.exists_path {path : List (BitVec 9)} (h : path.length = 4) : ∃ v : Vpn, v.path = path := by
  match path, h with
  | [l, k, j, i], _ => exact ⟨⟨i, j, k, l⟩, rfl⟩

/-- Tables and leaves say where every path leads. -/
theorem frameAt_ext {m m' : Machine} {pd : Ptr}
    (htable : ∀ path : List (BitVec 9), path.length ≤ 3 → m'.frameAt pd path = m.frameAt pd path)
    (hleaf : ∀ v : Vpn, m'.frameAt pd v.path = m.frameAt pd v.path) :
    m'.frameAt pd = m.frameAt pd := by
  have hdeep : ∀ (m : Machine) (path : List (BitVec 9)), 4 < path.length →
      m.frameAt pd path = none := by
    intro m path hlen
    cases hf : m.frameAt pd path with
    | none => rfl
    | some f => exact absurd (length_of_frameAt hf) (Nat.not_le.mpr hlen)
  funext path
  rcases Nat.lt_trichotomy path.length 4 with hlt | heq | hgt
  · exact htable path (Nat.le_of_lt_succ hlt)
  · obtain ⟨v, rfl⟩ := exists_path heq
    exact hleaf v
  · rw [hdeep m' path hgt, hdeep m path hgt]

namespace Copied
variable {strict : Prop} {d : Set Ptr} {x : Ptr → Nat} {parent q : Ptr} {m m' : Machine}
  {D : Set Vpn} (h : Copied strict d x parent m D q m')
include h

theorem leaf_cases {pd : Ptr} (hd : pd ∈ d) (v : Vpn) :
    m'.leaf pd v = m.leaf pd v ∨ m'.leaf pd v = shareEntry (m.leaf pd v) := by
  by_cases hp : pd = parent
  · subst hp
    by_cases hv : v ∈ D
    · exact .inr (h.shared v hv).1
    · exact .inl (h.rest v hv).1
  · exact .inl (h.others pd hd hp v)

theorem frameAt_old {pd : Ptr} (hd : pd ∈ d) : m'.frameAt pd = m.frameAt pd := by
  refine frameAt_ext (h.tables pd hd) fun v => ?_
  rw [m'.frameAt_path, m.frameAt_path]
  rcases h.leaf_cases hd v with hleaf | hleaf
  · rw [hleaf]
  · rw [hleaf, shareEntry_present, frameOf_shareEntry]

theorem frameAt_child (v : Vpn) {f : Ptr} :
    m'.frameAt q v.path = some f ↔ v ∈ D ∧ m.frameAt parent v.path = some f := by
  rw [m'.frameAt_path, m.frameAt_path]
  by_cases hv : v ∈ D
  · rw [(h.shared v hv).2, shareEntry_present, frameOf_shareEntry]
    exact (and_iff_right hv).symm
  rw [(h.rest v hv).2, has_zero]
  exact ⟨fun hx => absurd hx (by simp), fun hx => absurd hx.1 hv⟩

/-- The child maps a page in as many places as were shared of it. -/
theorem encard_child {f : Ptr} (hf : IsFrame f) (hr : m.refs f ≠ 0) (ht : ¬ m.IsTable d f) :
    {path | m'.frameAt q path = some f}.encard =
      {v | v ∈ D ∧ m.frameAt parent v.path = some f}.encard := by
  have hnot := (h.page f hf hr ht).2.2
  have himage : {path | m'.frameAt q path = some f} =
      path '' {v | v ∈ D ∧ m.frameAt parent v.path = some f} := by
    ext path
    constructor
    · intro hat
      have hlen : path.length = 4 := by
        refine Nat.le_antisymm (length_of_frameAt hat) (Nat.lt_of_not_le fun hle => ?_)
        exact hnot (Ledger.isTable (.inl rfl) hle hat)
      obtain ⟨v, rfl⟩ := exists_path hlen
      exact ⟨v, (h.frameAt_child v).mp hat, rfl⟩
    · rintro ⟨v, hv, rfl⟩
      exact (h.frameAt_child v).mpr hv
  rw [himage, path_injective.encard_image]

end Copied

/-! ### A fork undone -/

/-- `m'` is `m` after a fork was undone. -/
structure Unforked (strict : Prop) (d : Set Ptr) (x : Ptr → Nat) (parent : Ptr)
    (m m' : Machine) : Prop where
  moves : Moves strict ⟨m, d, x⟩ ⟨m', d, x⟩
  frameAt : ∀ pd ∈ d, m'.frameAt pd = m.frameAt pd
  leaf : ∀ pd ∈ d, ∀ v, m'.leaf pd v = m.leaf pd v ∨ m'.leaf pd v = shareEntry (m.leaf pd v)
  word : ∀ f, IsFrame f → m.refs f ≠ 0 → ¬ m.IsTable d f → m'.word f = m.word f
  pinned : m'.pinned = m.pinned
  leaks : m'.events.leaks = m.events.leaks
  /-- Only a pinned frame's counter can stay wrong, if it was full on the way. -/
  refs : ∀ f, IsFrame f → (m.pinned f = true →
      (m.refs f : ℕ∞) + {v : Vpn | m.frameAt parent v.path = some f}.encard ≤ 255) →
    m'.refs f = m.refs f

section Unforked
variable {strict : Prop} {d : Set Ptr} {x : Ptr → Nat} {parent q : Ptr} {m m' : Machine}
  {D : Set Vpn}

/-- Frames that are counted have the counter their places give them. -/
theorem Ledger.refs_eq (hl : Ledger m d x) (hl' : Ledger m' d x)
    (hat : ∀ pd ∈ d, m'.frameAt pd = m.frameAt pd) (hpin : m'.pinned = m.pinned) {f : Ptr}
    (hf : IsFrame f) (hp : m.pinned f = false) : m'.refs f = m.refs f := by
  have hholders : m'.holders d f = m.holders d f := by
    ext y
    exact and_congr_right fun hy => by rw [hat y.1 hy]
  have hafter := hl'.counted f hf (by rwa [hpin])
  rw [hholders, hl.counted f hf hp] at hafter
  exact_mod_cast hafter.symm

theorem Machine.Refused.unforked (h : m.Refused m') : Unforked strict d x parent m m' where
  moves := .single h.move
  frameAt pd _ := frameAt_congr fun _ _ _ _ => by rw [h.word]
  leaf pd _ v := .inl (leaf_of_word h.word pd v)
  word f _ _ _ := by rw [h.word]
  pinned := by
    funext p
    rw [Machine.pinned, h.frames, Machine.pinned]
  leaks := by
    rw [h.events]
    rfl
  refs f _ _ := by rw [Machine.refs, refcount, h.frames, Machine.refs, refcount]

/-- Releasing the child gives back what it shared. -/
theorem Copied.unforked (h : Copied strict d x parent m D q m') (hl : Ledger m d x) :
    Unforked strict d x parent m (m'.freePageDirectory q) := by
  have hl' : Ledger m' (insert q d) x := h.moves.ledger hl
  have heq := hl'.freePageDirectory_eq (Set.mem_insert q d)
  have hmoves : Moves strict ⟨m, d, x⟩ ⟨m'.freePageDirectory q, d, x⟩ := by
    have hleave : Moves strict ⟨m, d, x⟩ _ := h.moves.tail (.leave (Set.mem_insert q d))
    rwa [Set.insert_sdiff_self_of_notMem h.new] at hleave
  have hat : ∀ pd ∈ d, (m'.freePageDirectory q).frameAt pd = m.frameAt pd := fun pd hd => by
    rw [heq, freeAll_frameAt, h.frameAt_old hd]
  have hpin : (m'.freePageDirectory q).pinned = m.pinned := by
    rw [heq, freeAll_pinned, h.pinned]
  constructor
  case moves => exact hmoves
  case frameAt => exact hat
  case leaf =>
    intro pd hd v
    rw [heq, freeAll_leaf]
    exact h.leaf_cases hd v
  case word =>
    intro f hf hr ht
    rw [heq, freeAll_word]
    exact (h.page f hf hr ht).1
  case pinned => exact hpin
  case leaks =>
    rw [freePageDirectory_events]
    exact h.leaks
  case refs =>
    intro f hf hroom
    cases hp : m.pinned f with
    | false => exact hl.refs_eq (hmoves.ledger hl) hat hpin hf hp
    | true =>
      have hr := hl.pinned f hf hp
      have hle : {v | v ∈ D ∧ m.frameAt parent v.path = some f}.encard ≤
          {v : Vpn | m.frameAt parent v.path = some f}.encard :=
        Set.encard_le_encard fun v hv => hv.2
      have hcount := h.counts f hf hr (hl.not_table (.inl hp))
      rw [min_eq_right ((add_le_add_right hle _).trans (hroom hp)),
        ← h.encard_child hf hr (hl.not_table (.inl hp)), Ledger.encard_frameAt] at hcount
      have hsum : m'.refs f = m.refs f + (m'.subtree 4 0 q).count f := by exact_mod_cast hcount
      rw [heq, hl'.refs_release (Set.mem_insert q d) hf (by omega), hsum, Nat.add_sub_cancel]

/-- With references to the same frames, the allocator has as many free ones. -/
theorem freePages_eq {boot : Memory.Frames} (hb : Memory.Coherent boot m.frames)
    (hb' : Memory.Coherent boot m'.frames) (h : ∀ f, IsFrame f → (m'.refs f = 0 ↔ m.refs f = 0)) :
    m'.frames.freePages = m.frames.freePages := by
  have htotal : m'.frames.totalPages = m.frames.totalPages := hb'.total.trans hb.total.symm
  have hfree : ∀ p < m.frames.totalPages, Memory.isFree m'.frames p = Memory.isFree m.frames p := by
    intro p hp
    cases hboot : Memory.isFree boot p with
    | false => rw [(hb'.reserved p hboot).1, (hb.reserved p hboot).1]
    | true =>
      have hpos : 0 < p := hb.pos hboot hp
      have hlt : p < Memory.maxPages := Nat.lt_of_lt_of_le hp hb.counted.1
      have hrefs := h (BitVec.ofNat 64 (p * Memory.pageSize)) ⟨p, hpos, hlt, rfl⟩
      rw [Machine.refs, refcount, Machine.refs, refcount, frame_idx hlt] at hrefs
      rw [Bool.eq_iff_iff, hb'.tracked p hboot, hb.tracked p hboot, ← BitVec.toNat_inj,
        ← BitVec.toNat_inj]
      exact hrefs
  have hcount : Bitmap.count m'.frames.pageBitmap m.frames.totalPages =
      Bitmap.count m.frames.pageBitmap m.frames.totalPages := by
    rw [Bitmap.count, Bitmap.count]
    refine congrArg Finset.card (Finset.filter_congr fun p hp => ?_)
    exact iff_of_eq (congrArg (· = true) (hfree p (Finset.mem_range.mp hp)))
  have hnat := hb'.counted.2
  rw [htotal, hcount, ← hb.counted.2] at hnat
  exact BitVec.toNat_inj.mp hnat

end Unforked

end Nyx.Paging
