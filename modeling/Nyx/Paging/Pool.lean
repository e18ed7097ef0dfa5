import Nyx.Memory.Coherence
import Nyx.Paging.Tables

/-! What the page allocator's calls do to the frames, as the paging code sees them, and how
a frame's address and the flags of an entry sit in one word without touching. -/
namespace Nyx.Paging
open Memory BitVec

/-- The address of a frame that the pool can hold. -/
def IsFrame (p : Ptr) : Prop := ∃ n, 0 < n ∧ n < maxPages ∧ p = BitVec.ofNat 64 (n * pageSize)

theorem frame_toNat {n : Nat} (h : n < maxPages) :
    (BitVec.ofNat 64 (n * pageSize)).toNat = n * pageSize := by
  have hmax : maxPages = 131072 := rfl
  have hsize : n * pageSize = n * 4096 := rfl
  rw [toNat_ofNat, Nat.mod_eq_of_lt (by omega)]

theorem frame_idx {n : Nat} (h : n < maxPages) :
    pageIdx (BitVec.ofNat 64 (n * pageSize)).toNat = n := by
  have hmax : maxPages = 131072 := rfl
  rw [frame_toNat h, pageIdx, pageSize]
  omega

namespace IsFrame
variable {p q : Ptr}

theorem idx_lt (h : IsFrame p) : pageIdx p.toNat < maxPages := by
  obtain ⟨n, _, hn, rfl⟩ := h
  rwa [frame_idx hn]

theorem idx_pos (h : IsFrame p) : 0 < pageIdx p.toNat := by
  obtain ⟨n, hpos, hn, rfl⟩ := h
  rwa [frame_idx hn]

theorem eq_idx (h : IsFrame p) : p = BitVec.ofNat 64 (pageIdx p.toNat * pageSize) := by
  obtain ⟨n, _, hn, rfl⟩ := h
  rw [frame_idx hn]

theorem idx_inj (hp : IsFrame p) (hq : IsFrame q) (h : pageIdx p.toNat = pageIdx q.toNat) :
    p = q := by
  rw [hp.eq_idx, hq.eq_idx, h]

theorem idx_eq_iff (hp : IsFrame p) (hq : IsFrame q) : pageIdx p.toNat = pageIdx q.toNat ↔ p = q :=
  ⟨hp.idx_inj hq, fun h => h ▸ rfl⟩

theorem ne_zero (h : IsFrame p) : p ≠ 0#64 := by
  rintro rfl
  exact absurd h.idx_pos (by decide)

end IsFrame

/-! ### Addresses and flags -/

theorem getLsbD_pteAddrMask (i : Nat) :
    pteAddrMask.getLsbD i = (decide (12 ≤ i) && decide (i < 52)) := by
  by_cases hi : i < 64
  · have hall : ∀ j : Fin 64,
        pteAddrMask.getLsbD j = (decide (12 ≤ j.val) && decide (j.val < 52)) := by decide
    exact hall ⟨i, hi⟩
  · rw [getLsbD_of_ge _ _ (by omega)]
    simp; omega

theorem frameOf_of_aligned {phys : BitVec 64} (hpage : phys.toNat % 4096 = 0)
    (hlow : phys.toNat < 2 ^ 52) : frameOf phys = phys := by
  apply eq_of_getLsbD_eq
  intro i hi
  rw [frameOf, getLsbD_and, getLsbD_pteAddrMask]
  by_cases hin : 12 ≤ i ∧ i < 52
  · simp [hin]
  have hbit : phys.getLsbD i = false := by
    rw [BitVec.getLsbD]
    by_cases h12 : 12 ≤ i
    · refine Nat.testBit_lt_two_pow (Nat.lt_of_lt_of_le hlow ?_)
      exact Nat.pow_le_pow_right (by decide) (by omega)
    rw [← Nat.div_add_mod phys.toNat 4096, hpage, Nat.add_zero,
      show 4096 = 2 ^ 12 from rfl, Nat.testBit_two_pow_mul]
    simp [h12]
  simp [hbit]

theorem IsFrame.frameOf_eq {p : Ptr} (h : IsFrame p) : frameOf p = p := by
  obtain ⟨n, _, hn, rfl⟩ := h
  have hmax : maxPages = 2 ^ 17 := rfl
  have hto : (BitVec.ofNat 64 (n * pageSize)).toNat = n * 4096 :=
    Nat.mod_eq_of_lt (by simp only [pageSize]; omega)
  exact frameOf_of_aligned (by omega) (by omega)

theorem has_lor (a b flag : BitVec 64) : has (a ||| b) flag = (has a flag || has b flag) := by
  simp only [has, BitVec.and_or_distrib_right]
  rw [Bool.eq_iff_iff]
  simp only [bne_iff_ne, ne_eq, BitVec.or_eq_zero_iff, Bool.or_eq_true]
  tauto

theorem has_land (a mask flag : BitVec 64) : has (a &&& mask) flag = has a (mask &&& flag) := by
  rw [has, BitVec.and_assoc, has]

theorem has_none (a : BitVec 64) : has a 0#64 = false := by
  simp [has]

theorem frameOf_lor (a b : BitVec 64) : frameOf (a ||| b) = frameOf a ||| frameOf b :=
  BitVec.and_or_distrib_right

theorem frameOf_land (a mask : BitVec 64) : frameOf (a &&& mask) = a &&& (mask &&& pteAddrMask) :=
  BitVec.and_assoc ..

section Entry
variable {p : Ptr} (hp : IsFrame p)
include hp

theorem frameOf_or {flags : BitVec 64} (hf : flags &&& pteAddrMask = 0#64) :
    frameOf (p ||| flags) = p := by
  rw [frameOf, BitVec.and_or_distrib_right, hf, BitVec.or_zero]
  exact hp.frameOf_eq

theorem frame_and {flag : BitVec 64} (hf : flag &&& pteAddrMask = 0#64) : p &&& flag = 0#64 := by
  have hflag : p &&& flag = frameOf p &&& flag := by rw [hp.frameOf_eq]
  rw [hflag, frameOf, BitVec.and_assoc, BitVec.and_comm pteAddrMask, hf, BitVec.and_zero]

theorem has_or {flags flag : BitVec 64} (hf : flag &&& pteAddrMask = 0#64) :
    has (p ||| flags) flag = has flags flag := by
  rw [has, BitVec.and_or_distrib_right, frame_and hp hf, BitVec.zero_or, has]

end Entry

namespace Machine
variable {m m' : Machine}

def refs (m : Machine) (p : Ptr) : Nat := (m.refcount p).toNat

theorem refs_lt (m : Machine) (p : Ptr) : m.refs p < 256 := (m.refcount p).isLt

/-- The allocator is in a state it can reach from some boot. -/
def Sound (m : Machine) : Prop := ∃ boot, Coherent boot m.frames

/-- `m'` is `m` after `alloc_page` handed out `p`. -/
structure Took (m m' : Machine) (p : Ptr) : Prop where
  frame : IsFrame p
  fresh : m.refs p = 0
  refs : ∀ q, IsFrame q → m'.refs q = if q = p then 1 else m.refs q
  word : m'.word = m.word
  pinned : m'.pinned = m.pinned
  events : m'.events = m.events
  kernel : m'.kernelPml4 = m.kernelPml4
  coherent : ∀ boot, Coherent boot m.frames → Coherent boot m'.frames

theorem Took.sound {p : Ptr} (h : m.Took m' p) (hs : m.Sound) : m'.Sound := hs.imp h.coherent

/-- `m'` is `m` after `alloc_page` returned `NULL`. -/
structure Refused (m m' : Machine) : Prop where
  frames : m'.frames = m.frames
  word : m'.word = m.word
  events : m'.events = m.events.null true
  kernel : m'.kernelPml4 = m.kernelPml4

theorem allocPage_cases (h : m.Sound) :
    m.allocPage.2 = 0#64 ∧ m.Refused m.allocPage.1 ∨ m.Took m.allocPage.1 m.allocPage.2 := by
  obtain ⟨boot, hb⟩ := h
  unfold allocPage
  split
  · exact .inl ⟨rfl, rfl, rfl, rfl, rfl⟩
  cases ha : allocIdx m.frames with
  | none =>
    left
    rw [allocPage_none ha]
    exact ⟨rfl, rfl, rfl, rfl, rfl⟩
  | some n =>
    right
    obtain ⟨hn, hfree⟩ := allocIdx_some ha
    obtain ⟨hboot, hzero⟩ := hb.free hfree
    have hpos := hb.pos hboot hn
    have hlt : n < maxPages := Nat.lt_of_lt_of_le hn hb.counted.1
    have hne : (n * pageSize == 0) = false := by
      have hsize : n * pageSize = n * 4096 := rfl
      rw [beq_eq_false_iff_ne]
      omega
    have hsnd := fun boot (hb : Coherent boot m.frames) => coherent_alloc hb
    rw [allocPage_some ha] at hsnd
    rw [allocPage_some ha]
    refine ⟨⟨n, hpos, hlt, rfl⟩, ?_, ?_, rfl, rfl, ?_, rfl, hsnd⟩
    · rw [Machine.refs, refcount, frame_idx hlt, hzero]
      rfl
    · intro q hq
      have hqn : pageIdx q.toNat = n ↔ q = BitVec.ofNat 64 (n * pageSize) := by
        rw [← hq.idx_eq_iff ⟨n, hpos, hlt, rfl⟩, frame_idx hlt]
      simp only [Machine.refs, refcount, Function.update_apply, hqn]
      split <;> rfl
    · show m.events.null (n * pageSize == 0) = m.events
      rw [hne]
      rfl

def smallPool : Frames :=
  ⟨32, 31#32, fun w => if w = 0 then 0xFFFFFFFE#32 else 0#32, fun _ => 0#8, fun _ => false,
    0x20000#64, 0#64⟩

theorem booted_smallPool : Booted smallPool where
  counted := ⟨by decide, by decide +kernel⟩
  guard _ := by decide
  untracked _ := rfl
  unpinned _ := rfl

def small : Machine := ⟨smallPool, fun _ _ => 0#64, 0#64, fun _ => false, 0, ⟨0, 0, 0, 0, 0, 0⟩⟩

theorem sound_small : small.Sound := ⟨smallPool, booted_smallPool.coherent⟩

/-! ### References -/

theorem Sound.pool (h : m.Sound) {p : Ptr} (hp : m.refs p ≠ 0) :
    pageIdx p.toNat < m.frames.totalPages := by
  obtain ⟨boot, hb⟩ := h
  refine hb.pool _ fun hz => hp ?_
  rw [refs, refcount, hz]
  rfl

theorem refcount_ne_zero {p : Ptr} (hp : m.refs p ≠ 0) :
    m.frames.pageRefcount (pageIdx p.toNat) ≠ 0#8 := by
  intro hz
  apply hp
  rw [refs, refcount, hz]
  rfl

section Incref
variable {p q : Ptr}

theorem sound_pageIncref (h : m.Sound) (hp : m.refs p ≠ 0) : (m.pageIncref p).Sound := by
  obtain ⟨boot, hb⟩ := h
  exact ⟨boot, coherent_incref hb _ (refcount_ne_zero hp)⟩

@[simp] theorem pageIncref_pinned : (m.pageIncref p).pinned = m.pinned := by
  funext q
  exact congrFun (Memory.pageIncref_pinned m.frames p.toNat) _

/-- A reference more, unless the counter is full. -/
theorem refs_pageIncref (h : m.Sound) (hp : IsFrame p) (hr : m.refs p ≠ 0) (hq : IsFrame q) :
    (m.pageIncref p).refs q =
      if q = p ∧ m.refs p < 255 then m.refs q + 1 else m.refs q := by
  have hpool := h.pool hr
  simp only [refs, refcount, pageIncref, pageIncref_refcount, hq.idx_eq_iff hp]
  by_cases he : q = p
  · subst he
    simp only [true_and, hpool, lt_def]
    split
    · rename_i hlt
      rw [if_pos (by simpa using hlt), toNat_add]
      simp only [toNat_ofNat] at hlt ⊢
      omega
    · rename_i hlt
      rw [if_neg (by simpa using hlt)]
  · simp [he]

/-- The event is there when a reference to an unpinned frame was not counted. -/
theorem pageIncref_events_saturations : (m.pageIncref p).events.saturations =
      m.events.saturations + if m.refs p = 255 ∧ m.pinned p = false then 1 else 0 := by
  have hfull : (m.refcount p = 255#8) ↔ m.refs p = 255 := by
    rw [refs, ← toNat_inj]
    rfl
  show m.events.saturations + (m.refcount p == 255#8 && !m.pinned p).toNat = _
  congr 1
  by_cases h255 : m.refs p = 255
  · rw [beq_iff_eq.mpr (hfull.mpr h255)]
    cases m.pinned p <;> simp [h255]
  rw [beq_eq_false_iff_ne.mpr (fun h => h255 (hfull.mp h))]
  simp [h255]

end Incref

section Free
variable {p q : Ptr}

theorem sound_freePage (h : m.Sound) (hp : m.refs p ≠ 0) : (m.freePage p).Sound := by
  obtain ⟨boot, hb⟩ := h
  exact ⟨boot, coherent_free hb _ (refcount_ne_zero hp)⟩

@[simp] theorem freePage_pinned : (m.freePage p).pinned = m.pinned := by
  funext q
  exact congrFun (Memory.freePage_pinned m.frames p.toNat) _

theorem refs_freePage_ne (hp : IsFrame p) (hq : IsFrame q) (hne : q ≠ p) :
    (m.freePage p).refs q = m.refs q := by
  simp only [refs, refcount, freePage, freePage_refcount, hq.idx_eq_iff hp, hne, false_and,
    if_false]

/-- A reference less; the last one to an unpinned frame frees it. -/
theorem refs_freePage_self (h : m.Sound) (hr : m.refs p ≠ 0) (hpin : m.pinned p = false) :
    (m.freePage p).refs p = m.refs p - 1 := by
  have hpool := h.pool hr
  have hpin' : m.frames.pagePinned (pageIdx p.toNat) = false := hpin
  have hr' : (m.frames.pageRefcount (pageIdx p.toNat)).toNat ≠ 0 := hr
  simp only [refs, refcount, freePage, freePage_refcount, true_and, hpool, if_true]
  split
  case isTrue hgt => bv_omega
  case isFalse hle =>
    rw [hpin', if_neg Bool.false_ne_true]
    bv_omega

/-- A reference less, pinned or not, while another is left. -/
theorem refs_freePage_of_lt (h : m.Sound) (hr : 1 < m.refs p) :
    (m.freePage p).refs p = m.refs p - 1 := by
  have hpool := h.pool (Nat.ne_of_gt (Nat.zero_lt_of_lt hr))
  have hr' : 1 < (m.frames.pageRefcount (pageIdx p.toNat)).toNat := hr
  simp only [refs, refcount, freePage, freePage_refcount, true_and, hpool, if_true]
  split <;> bv_omega

theorem refs_freePage_pinned (h : m.Sound) (hr : m.refs p ≠ 0) (hpin : m.pinned p = true) :
    (m.freePage p).refs p ≠ 0 := by
  have hpool := h.pool hr
  have hpin' : m.frames.pagePinned (pageIdx p.toNat) = true := hpin
  simp only [refs, refcount, freePage, freePage_refcount, true_and, hpool, hpin', if_true]
  split
  case isTrue hgt => bv_omega
  case isFalse hle => decide

end Free

section Pin
variable {p q : Ptr}

theorem sound_pagePin (h : m.Sound) : (m.pagePin p).Sound := by
  obtain ⟨boot, hb⟩ := h
  exact ⟨boot, coherent_pin hb _⟩

@[simp] theorem pagePin_word : (m.pagePin p).word = m.word := rfl

@[simp] theorem pagePin_refs : (m.pagePin p).refs = m.refs := by
  funext q
  rw [refs, refcount, pagePin, Memory.pagePin_refcount, refs, refcount]

theorem pagePin_pinned (hp : IsFrame p) (hq : IsFrame q) :
    (m.pagePin p).pinned q = (m.pinned q || decide (q = p)) := by
  rw [pinned, pagePin, Memory.pagePin_pinned, pinned]
  congr 1
  rw [decide_eq_decide, hq.idx_eq_iff hp]
  exact ⟨fun h => h.1, fun h => ⟨h, hq.idx_lt⟩⟩

end Pin

end Machine
end Nyx.Paging
