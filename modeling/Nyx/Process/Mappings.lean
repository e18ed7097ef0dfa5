import Nyx.Lib.Run
import Nyx.Lib.Wrapping
import Nyx.Process.Regions

/-! The regions of thread groups over runs of `do_mmap` and `do_munmap`.

Regions are given out upwards and never moved, so all that a table holds lies below `mmap_next`
(`Laid`). Lengths are rounded up to pages; the rounding wraps for the last 4095, and the region is
then empty. -/
namespace Nyx.Process
namespace Kernel
open Lib

inductive MapOp where
  | mmap (self : Nat) (length : BitVec 64) (prot : BitVec 32) (file : FileArg) (block : Nat)
      (readable : Bool)
  | munmap (self : Nat) (addr length : BitVec 64)
deriving DecidableEq, Repr

variable (k : Kernel)

def mapStep : MapOp → Kernel
  | .mmap self length prot file block readable =>
    (k.doMmap self length prot file block readable).1
  | .munmap self addr length => (k.doMunmap self addr length).1

def Apart (v w : Vma) : Prop := v.stop ≤ w.start ∨ w.stop ≤ v.start

instance (v w : Vma) : Decidable (Apart v w) := inferInstanceAs (Decidable (_ ∨ _))

theorem Apart.symm {v w : Vma} (h : Apart v w) : Apart w v := Or.symm h

structure Laid (t : Proc) : Prop where
  within : ∀ i, (t.mmapVmas i).used = true → mmapBase ≤ (t.mmapVmas i).start ∧
    (t.mmapVmas i).stop ≤ t.mmapNext ∧ (t.mmapVmas i).stop ≤ mmapMax
  apart : ∀ i j, i ≠ j → (t.mmapVmas i).used = true → (t.mmapVmas j).used = true →
    Apart (t.mmapVmas i) (t.mmapVmas j)

/-- Regions may only have gone, and the next address only grown. -/
structure Fewer (t t' : Proc) : Prop where
  vma : ∀ i, (t'.mmapVmas i).used = true → t'.mmapVmas i = t.mmapVmas i
  next : t.mmapNext ≤ t'.mmapNext

theorem Fewer.refl (t : Proc) : Fewer t t := ⟨fun _ _ => rfl, BitVec.le_refl _⟩

theorem Laid.fewer {t t' : Proc} (h : Laid t) (hf : Fewer t t') : Laid t' where
  within i hi := by
    have hv := hf.vma i hi
    rw [hv] at hi ⊢
    obtain ⟨hbase, hnext, hmax⟩ := h.within i hi
    exact ⟨hbase, BitVec.le_trans hnext hf.next, hmax⟩
  apart i j hne hi hj := by
    have hv := hf.vma i hi
    have hw := hf.vma j hj
    rw [hv] at hi ⊢
    rw [hw] at hj ⊢
    exact h.apart i j hne hi hj

theorem le_mmapStart (t : Proc) : mmapBase ≤ mmapStart t ∧ t.mmapNext ≤ mmapStart t := by
  rw [mmapStart]
  split
  case isTrue h => exact ⟨BitVec.le_refl _, BitVec.le_of_lt h⟩
  case isFalse h => exact ⟨BitVec.not_lt.mp h, BitVec.le_refl _⟩

/-- The table of a group with a region at `slot`, from the next address on. -/
def placed (t : Proc) (slot : Fin procMaxVmas) (stop : BitVec 64) (v : Vma) : Proc :=
  setVma {t with mmapNext := stop} slot v

theorem Laid.placed {t : Proc} (h : Laid t) {slot : Fin procMaxVmas} {v : Vma}
    (hstart : v.start = mmapStart t) (hgrows : v.start ≤ v.stop) (hmax : v.stop ≤ mmapMax) :
    Laid (placed t slot v.stop v) ∧
      ∀ j ≠ slot, (t.mmapVmas j).used = true → Apart v (t.mmapVmas j) := by
  obtain ⟨hbase, hnext⟩ := le_mmapStart t
  have hapart (j : Fin procMaxVmas) (hj : (t.mmapVmas j).used = true) : Apart v (t.mmapVmas j) :=
    .inr (hstart ▸ BitVec.le_trans (h.within j hj).2.1 hnext)
  have hvma (j : Fin procMaxVmas) :
      (Kernel.placed t slot v.stop v).mmapVmas j = if j = slot then v else t.mmapVmas j :=
    setVma_mmapVmas ..
  refine ⟨⟨fun i hi => ?_, fun i j hne hi hj => ?_⟩, fun j _ hj => hapart j hj⟩
  · show _ ∧ _ ≤ v.stop ∧ _
    rw [hvma] at hi ⊢
    split at hi
    case isTrue hs =>
      rw [if_pos hs]
      exact ⟨hstart ▸ hbase, BitVec.le_refl _, hmax⟩
    case isFalse hs =>
      rw [if_neg hs]
      obtain ⟨hlow, htop, hend⟩ := h.within i hi
      exact ⟨hlow, BitVec.le_trans htop (BitVec.le_trans hnext (hstart ▸ hgrows)), hend⟩
  · rw [hvma] at hi hj ⊢
    rw [hvma]
    by_cases his : i = slot
    · have hjs : j ≠ slot := fun hjs => hne (his.trans hjs.symm)
      rw [if_neg hjs] at hj ⊢
      rw [if_pos his]
      exact hapart j hj
    rw [if_neg his] at hi ⊢
    by_cases hjs : j = slot
    · rw [if_pos hjs]
      exact (hapart i hi).symm
    rw [if_neg hjs] at hj ⊢
    exact h.apart i j hne hi hj

/-! ### The two calls -/

theorem snapshot_procs (file : FileArg) (block : Nat) (readable : Bool) :
    (k.snapshot file block readable).1.procs = k.procs := by
  unfold snapshot
  split
  · dsimp only
    split
    · exact kmalloc_procs k block
    split
    · exact kmalloc_procs k block
    · exact (kfree_procs ..).trans (kmalloc_procs k block)
  · rfl

/-- A failed `do_mmap` leaves the tables; another puts one region into a free slot. -/
theorem doMmap_cases (self : Nat) (length : BitVec 64) (prot : BitVec 32) (file : FileArg)
    (block : Nat) (readable : Bool) :
    ((k.doMmap self length prot file block readable).2 = mapFailed ∧
      ∀ q, Fewer (k.procs q) ((k.doMmap self length prot file block readable).1.procs q)) ∨
    ∃ slot v, v.used = true ∧ v.start = mmapStart (k.procs (k.tgLeader self)) ∧
      v.stop = v.start + roundUp length ∧ v.start ≤ v.stop ∧ v.stop ≤ mmapMax ∧
      (k.doMmap self length prot file block readable).2 = v.start ∧
      (k.doMmap self length prot file block readable).1.procs =
        Function.update k.procs (k.tgLeader self)
          (placed (k.procs (k.tgLeader self)) slot v.stop v) := by
  have hstart (q : Nat) : Fewer (k.procs q) ((k.modify (k.tgLeader self) fun t =>
      {t with mmapNext := mmapStart (k.procs (k.tgLeader self))}).procs q) := by
    by_cases hq : q = k.tgLeader self
    · subst hq
      rw [modify_procs_self]
      exact ⟨fun _ _ => rfl, (le_mmapStart _).2⟩
    · rw [modify_procs_ne _ _ _ hq]
      exact .refl _
  unfold doMmap
  dsimp only
  split
  · exact .inl ⟨rfl, fun q => .refl _⟩
  split
  · exact .inl ⟨rfl, hstart⟩
  split
  · exact .inl ⟨rfl, hstart⟩
  case h_2 slot hslot hfits =>
    rw [not_or, BitVec.not_lt, BitVec.not_lt] at hfits
    have hprocs := snapshot_procs (k.modify (k.tgLeader self) fun t =>
      {t with mmapNext := mmapStart (k.procs (k.tgLeader self))}) file block readable
    split
    case h_1 k' hsnap =>
      rw [hsnap] at hprocs
      exact .inl ⟨rfl, fun q => by rw [show k'.procs = _ from hprocs]; exact hstart q⟩
    case h_2 k' fb snap hsnap =>
      rw [hsnap] at hprocs
      refine .inr ⟨slot, ⟨_, _, prot, true, fb, snap⟩, rfl, rfl, rfl, hfits.2, hfits.1, rfl, ?_⟩
      simp only [modify, show k'.procs = _ from hprocs, Function.update_self, Function.update_idem]
      rfl

theorem fewer_unmapVma (p : Nat) (start stop : BitVec 64) (k k' : Kernel) (i : Fin procMaxVmas)
    (h : ∀ q, Fewer (k.procs q) (k'.procs q)) (q : Nat) :
    Fewer (k.procs q) ((unmapVma p start stop k' i).procs q) := by
  have hdrop (k'' : Kernel) (hk : k''.procs = k'.procs) (v : Vma) (hv : v.used = false) :
      Fewer (k.procs q) ((k''.modify p (setVma · i v)).procs q) := by
    by_cases hq : q = p
    · subst hq
      rw [modify_procs_self, hk]
      refine ⟨fun j hj => ?_, (h q).next⟩
      rw [setVma_mmapVmas] at hj ⊢
      split at hj
      · exact absurd (hv.symm.trans hj) Bool.false_ne_true
      case isFalse hji =>
        rw [if_neg hji]
        exact (h q).vma j hj
    · rw [modify_procs_ne _ _ _ hq, hk]
      exact h q
  unfold unmapVma
  dsimp only
  split
  · split
    · exact hdrop k' rfl _ rfl
    · exact hdrop _ (kfree_procs ..) _ rfl
  · exact h q

theorem laid_mapStep {k : Kernel} (h : ∀ p, Laid (k.procs p)) (op : MapOp) (p : Nat) :
    Laid ((k.mapStep op).procs p) := by
  cases op with
  | mmap self length prot file block readable =>
    rcases doMmap_cases k self length prot file block readable with
      ⟨-, hf⟩ | ⟨slot, v, -, hstart, -, hgrows, hmax, -, hprocs⟩
    · exact (h p).fewer (hf p)
    rw [mapStep, hprocs, Function.update_apply]
    split
    · exact ((h _).placed hstart hgrows hmax).1
    · exact h p
  | munmap self addr length =>
    rw [mapStep, doMunmap]
    split
    · exact h p
    exact (h p).fewer (foldl_keeps (fun k' i hk => fewer_unmapVma _ _ _ k k' i hk) _
      (fun q => .refl _) p)

theorem le_roundUp {length : BitVec 64} (h : length.toNat ≤ 2 ^ 64 - 4096) :
    length.toNat ≤ (roundUp length).toNat := by
  rw [roundUp, toNat_and_not_low, BitVec.toNat_add]
  simp only [BitVec.toNat_ofNat]
  omega

/-- What `do_mmap` returns after any calls, if rounding the length does not wrap. -/
theorem mmap_regions_sound {k : Kernel} (hnew : ∀ p i, ((k.procs p).mmapVmas i).used = false)
    (ops : List MapOp) (self : Nat) {length : BitVec 64} (hlength : length.toNat ≤ 2 ^ 64 - 4096)
    (prot : BitVec 32) (file : FileArg) (block : Nat) (readable : Bool) {k' : Kernel}
    {base : BitVec 64}
    (hcall : (run mapStep k ops).doMmap self length prot file block readable = (k', base))
    (hmapped : base ≠ mapFailed) :
    ∃ i v, (k'.procs ((run mapStep k ops).tgLeader self)).mmapVmas i = v ∧ v.used = true ∧
      v.start = base ∧ base.toNat + length.toNat ≤ v.stop.toNat ∧ mmapBase ≤ v.start ∧
      v.stop ≤ mmapMax ∧
      ∀ j ≠ i, ((k'.procs ((run mapStep k ops).tgLeader self)).mmapVmas j).used = true →
        Apart v ((k'.procs ((run mapStep k ops).tgLeader self)).mmapVmas j) := by
  have hlaid : ∀ p, Laid ((run mapStep k ops).procs p) := by
    refine run_keeps (P := fun k => ∀ p, Laid (k.procs p)) (fun _ op h p => laid_mapStep h op p) k
      ops fun p => ⟨fun i hi => ?_, fun i j _ hi => ?_⟩
    · exact absurd ((hnew p i).symm.trans hi) Bool.false_ne_true
    · exact absurd ((hnew p i).symm.trans hi) Bool.false_ne_true
  generalize run mapStep k ops = k at *
  rcases doMmap_cases k self length prot file block readable with
    ⟨hfailed, -⟩ | ⟨slot, v, hused, hstart, hstop, hgrows, hmax, hbase, hprocs⟩
  · rw [hcall] at hfailed
    exact absurd hfailed hmapped
  rw [hcall] at hbase hprocs
  dsimp only at hbase hprocs
  rw [hprocs, Function.update_self, hbase]
  have hvma (j : Fin procMaxVmas) : (placed (k.procs (k.tgLeader self)) slot v.stop v).mmapVmas j =
        if j = slot then v else (k.procs (k.tgLeader self)).mmapVmas j := setVma_mmapVmas ..
  refine ⟨slot, v, (hvma slot).trans (if_pos rfl), hused, rfl, ?_, hstart ▸ (le_mmapStart _).1, hmax,
    fun j hj huse => ?_⟩
  · have hlen := le_roundUp hlength
    have hle : v.start.toNat ≤ v.stop.toNat := hgrows
    rw [hstop, BitVec.toNat_add] at hle ⊢
    omega
  · rw [hvma, if_neg hj] at huse ⊢
    exact ((hlaid _).placed hstart hgrows hmax).2 j hj huse

/-- A task (at 16) maps a page, then two. -/
theorem mmap_regions_sound_twice :
    ∃ i v, (((run mapStep .empty [.mmap 16 1 3 ⟨0, 0, 0⟩ 0 true]).doMmap 16 0x1001 3 ⟨0, 0, 0⟩ 0
        true).1.procs 16).mmapVmas i = v ∧ v.start = 0x100001000#64 ∧
      0x100001000 + 0x1001 ≤ v.stop.toNat := by
  have hfresh : ∀ p i, ((Kernel.empty.procs p).mmapVmas i).used = false := fun _ _ => rfl
  have hbase : ((run mapStep .empty [.mmap 16 1 3 ⟨0, 0, 0⟩ 0 true]).doMmap 16 0x1001 3 ⟨0, 0, 0⟩ 0
      true).2 = 0x100001000#64 := by decide +kernel
  obtain ⟨i, v, hv, -, hstart, hlen, -⟩ :=
    mmap_regions_sound hfresh [.mmap 16 1 3 ⟨0, 0, 0⟩ 0 true] 16
      (show (0x1001#64).toNat ≤ 2 ^ 64 - 4096 by decide) 3 ⟨0, 0, 0⟩ 0 true
      (Prod.ext rfl hbase : _ = (_, 0x100001000#64)) (by decide)
  exact ⟨i, v, hv, hstart, hlen⟩

/-- The longest mapping there is to ask for succeeds, with an empty region. -/
theorem mmap_wraps :
    (Kernel.empty.doMmap 16 (BitVec.allOnes 64) 3 ⟨0, 0, 0⟩ 0 true).2 = 0x100000000#64 ∧
      ∀ i, (((Kernel.empty.doMmap 16 (BitVec.allOnes 64) 3 ⟨0, 0, 0⟩ 0 true).1.procs 16).mmapVmas
        i).stop ≤ 0x100000000#64 := by
  decide +kernel

end Kernel
end Nyx.Process
