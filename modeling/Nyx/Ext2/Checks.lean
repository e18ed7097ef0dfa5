import Nyx.Ext2.Driver
import Nyx.Ext2.Groups

/-! The checks of the driver that concern one block succeed, whatever is in the block.

A loop over the entries of a block is given only that the entry it looks at starts in the block
with a length that ends in it (`Entry`). That is enough for every access to the entry, and for
the loop to end. -/
namespace Nyx.Ext2.Driver
open Nyx.Lib Volume

section
variable {g : Geometry} {blk src : Bytes} {o n room : Nat}

theorem ok_bind {α β : Type} (a : α) (k : α → Checked β) : (.ok a >>= k) = k a := rfl

/-- A branch that the driver and the value-level function take alike. -/
theorem ite_ok {α : Type} {p q : Prop} [Decidable p] [Decidable q] {x y : Checked α} {a b : α}
    (hpq : p ↔ q) (hx : p → x = .ok a) (hy : ¬ p → y = .ok b) :
    (if p then x else y) = .ok (if q then a else b) := by
  by_cases h : p
  · rw [if_pos h, if_pos (hpq.mp h), hx h]
  · rw [if_neg h, if_neg fun hq => h (hpq.mpr hq), hy h]

theorem check_ok {p : Prop} [Decidable p] (h : p) : check p = .ok () := if_pos h

theorem byteAt_ok (h : o < g.blockSize) : byteAt g blk o = .ok (blk o) := by
  rw [byteAt, check_ok h]
  rfl

theorem u16At_ok (h : o + 2 ≤ g.blockSize) : u16At g blk o = .ok (blk.u16 o) := by
  rw [u16At, check_ok h]
  rfl

theorem u32At_ok (h : o + 4 ≤ g.blockSize) : u32At g blk o = .ok (blk.u32 o) := by
  rw [u32At, check_ok h]
  rfl

theorem sliceAt_ok (h : o + n ≤ g.blockSize) : sliceAt g blk o n = .ok (blk.slice o n) := by
  rw [sliceAt, check_ok h]
  rfl

theorem listAt_ok (h : o + n ≤ g.blockSize) (hroom : n ≤ room) :
    listAt g blk o n room = .ok (blk.list o n) := by
  rw [listAt, check_ok ⟨h, hroom⟩]
  rfl

theorem putAt_ok (h : o + n ≤ g.blockSize) : putAt g blk o n src = .ok (blk.put o n src) := by
  rw [putAt, check_ok h]
  rfl

theorem testAt_ok (h : o < g.blockSize * 8) : testAt g blk o = .ok (Bitmap.test blk o) := by
  rw [testAt, check_ok (by omega)]
  rfl

theorem blockAt_ok (h : n < 15) : blockAt blk n = .ok (Inode.block blk n) := by
  rw [blockAt, check_ok h]
  rfl

theorem setBlockAt_ok {b : BitVec 32} (h : n < 15) :
    setBlockAt blk n b = .ok (Inode.setBlock blk n b) := by
  rw [setBlockAt, check_ok h]
  rfl

theorem div_ok {a b : Nat} (h : b ≠ 0) : div a b = .ok (a / b) := if_neg h

theorem rem_ok {a b : Nat} (h : b ≠ 0) : rem a b = .ok (a % b) := if_neg h

end

/-! ### Entries of a block -/

section
variable {g : Geometry} {blk : Bytes} {off : Nat}

/-- What the loops check before they look at an entry. -/
structure Entry (g : Geometry) (blk : Bytes) (off : Nat) : Prop where
  starts : off + direntHdr ≤ g.blockSize
  long : direntHdr ≤ Dirent.recLen blk off
  ends : off + Dirent.recLen blk off ≤ g.blockSize

/-- The loop ends before its limit, because each entry takes at least eight bytes. -/
theorem walk_ok {σ : Type} {limit : Nat} {visit : σ → Nat → Checked (Visit σ)}
    {visit' : σ → Nat → Visit σ}
    (hvisit : ∀ s off, Entry g blk off → visit s off = .ok (visit' s off)) :
    ∀ fuel off s, off ≤ g.blockSize → g.blockSize + direntHdr ≤ off + direntHdr * fuel →
      walk g blk limit visit fuel off s = .ok (Ext2.walk g blk limit visit' fuel off s) := by
  intro fuel
  induction fuel with
  | zero =>
    intro off s hoff hfuel
    simp only [direntHdr] at hfuel
    omega
  | succ fuel ih =>
    intro off s hoff hfuel
    simp only [walk, Ext2.walk]
    by_cases hin : off + direntHdr ≤ g.blockSize ∧ off < limit
    case neg =>
      rw [if_neg hin, if_neg hin]
      rfl
    have hstart : off + 8 ≤ g.blockSize := hin.1
    rw [if_pos hin, if_pos hin, u16At_ok (by omega), ok_bind]
    by_cases hbad : Dirent.recLen blk off < direntHdr ∨ g.blockSize < off + Dirent.recLen blk off
    case pos =>
      rw [if_pos hbad]
      exact if_pos hbad
    rw [if_neg hbad]
    refine (if_neg hbad).trans ?_
    rw [hvisit s off ⟨hin.1, by omega, by omega⟩, ok_bind]
    cases visit' s off with
    | next s =>
      refine ih _ s (by rw [Dirent.recLen] at hbad; omega) ?_
      simp only [direntHdr, Dirent.recLen] at hfuel hbad ⊢
      omega
    | stop s => rfl

theorem walk_block {σ : Type} {limit : Nat} {visit : σ → Nat → Checked (Visit σ)}
    {visit' : σ → Nat → Visit σ}
    (hvisit : ∀ s off, Entry g blk off → visit s off = .ok (visit' s off)) (s : σ) :
    walk g blk limit visit g.blockSize 0 s =
      .ok (Ext2.walk g blk limit visit' g.blockSize 0 s) := by
  have hge := g.blockSize_ge
  refine walk_ok hvisit g.blockSize 0 s (by omega) ?_
  simp only [direntHdr]
  omega

theorem overruns_iff :
    g.blockSize < off + direntHdr + Dirent.nameLen blk off ↔ overruns g blk off = true :=
  decide_eq_true_iff.symm

theorem visitName_ok {component : List (BitVec 8)} (s : Option (BitVec 32)) (h : Entry g blk off) :
    visitName g blk component s off = .ok (Ext2.visitName g blk component s off) := by
  have hstart : off + 8 ≤ g.blockSize := h.starts
  simp only [visitName, Ext2.visitName]
  rw [u32At_ok (by omega), ok_bind]
  refine ite_ok Iff.rfl (fun _ => rfl) fun _ => ?_
  rw [byteAt_ok (by omega), ok_bind]
  refine ite_ok overruns_iff (fun _ => rfl) fun hin => ?_
  refine ite_ok Iff.rfl (fun _ => rfl) fun hshort => ?_
  rw [listAt_ok (by omega) (by omega), ok_bind, check_ok (by omega), ok_bind]
  exact ite_ok Iff.rfl (fun _ => rfl) fun _ => rfl

theorem visitListed_ok {max : Nat} (s : List Volume.Listed) (h : Entry g blk off) :
    visitListed g blk max s off = .ok (Ext2.visitListed g blk max s off) := by
  have hstart : off + 8 ≤ g.blockSize := h.starts
  simp only [visitListed, Ext2.visitListed]
  refine ite_ok Iff.rfl (fun _ => rfl) fun hroom => ?_
  rw [u32At_ok (by omega), ok_bind]
  refine ite_ok Iff.rfl (fun _ => rfl) fun _ => ?_
  rw [byteAt_ok (by omega), ok_bind]
  refine ite_ok Iff.rfl (fun _ => rfl) fun hin => ?_
  refine ite_ok Iff.rfl (fun _ => ?_) fun _ => rfl
  have hshort : min (blk (off + 6)).toNat (maxFilename - 1) < maxFilename := by
    simp only [maxFilename]
    omega
  rw [check_ok (by omega), ok_bind, listAt_ok (by omega) hshort.le, ok_bind, check_ok hshort,
    ok_bind, byteAt_ok (by omega)]
  rfl

theorem visitOther_ok (s : Bool) (h : Entry g blk off) :
    visitOther g blk s off = .ok (Ext2.visitOther g blk s off) := by
  have hstart : off + 8 ≤ g.blockSize := h.starts
  simp only [visitOther, Ext2.visitOther]
  rw [byteAt_ok (by omega), ok_bind]
  refine ite_ok overruns_iff (fun _ => rfl) fun hin => ?_
  rw [u32At_ok (by omega), ok_bind, listAt_ok (by omega) le_rfl, ok_bind]
  exact ite_ok Iff.rfl (fun _ => rfl) fun _ => rfl

theorem visitChild_ok {child : List (BitVec 8)} (s : Option Nat) (h : Entry g blk off) :
    visitChild g blk child s off = .ok (Ext2.visitChild g blk child s off) := by
  have hstart : off + 8 ≤ g.blockSize := h.starts
  simp only [visitChild, Ext2.visitChild]
  rw [byteAt_ok (by omega), ok_bind]
  refine ite_ok overruns_iff (fun _ => rfl) fun hin => ?_
  rw [u32At_ok (by omega), ok_bind]
  -- The source compares the names only once the lengths agree.
  by_cases hcand : blk.u32 off ≠ 0 ∧ (blk (off + 6)).toNat = child.length ∧
      (blk (off + 6)).toNat < maxFilename
  case neg =>
    refine (if_neg hcand).trans (congrArg Except.ok (if_neg fun h => ?_).symm)
    exact hcand ⟨h.1, h.2.1, h.2.2.1⟩
  rw [if_pos hcand, listAt_ok (by omega) hcand.2.2.le, ok_bind, check_ok hcand.2.2, ok_bind]
  exact ite_ok ⟨fun hname => ⟨hcand.1, hcand.2.1, hcand.2.2, hname⟩, fun h => h.2.2.2⟩
    (fun _ => rfl) fun _ => rfl

theorem fill_ok {recLen : Nat} {ino : BitVec 32} {fileType : BitVec 8} {name : List (BitVec 8)}
    (hname : direntHdr + name.length ≤ recLen) (hend : off + recLen ≤ g.blockSize) :
    fill g blk off recLen ino fileType name = .ok (Dirent.fill blk off recLen ino fileType name) := by
  simp only [direntHdr] at hname
  rw [fill, putAt_ok (by omega), ok_bind, putAt_ok (by omega), ok_bind, putAt_ok (by omega),
    ok_bind, putAt_ok (by simp only [direntHdr]; omega), ok_bind,
    putAt_ok (by simp only [direntHdr]; omega)]
  rfl

theorem visitRoom_ok {name : List (BitVec 8)} {ino : BitVec 32} {fileType : BitVec 8}
    (s : Option Bytes) (h : Entry g blk off) :
    visitRoom g blk name ino fileType s off = .ok (Ext2.visitRoom blk name ino fileType s off) := by
  have hstart : off + 8 ≤ g.blockSize := h.starts
  have hend : off + (blk.u16 (off + 4)).toNat ≤ g.blockSize := h.ends
  have hsize := Dirent.le_space name.length
  have hmin := Dirent.le_space (blk (off + 6)).toNat
  simp only [visitRoom, Ext2.visitRoom]
  rw [u16At_ok (by omega), ok_bind, byteAt_ok (by omega), ok_bind, u32At_ok (by omega), ok_bind]
  refine ite_ok Iff.rfl (fun _ => ?_) fun _ => ?_
  · refine ite_ok Iff.rfl (fun hroom => ?_) fun _ => rfl
    rw [fill_ok (hsize.trans hroom) hend]
    rfl
  · refine ite_ok Iff.rfl (fun hroom => ?_) fun _ => rfl
    have hhdr : direntHdr = 8 := rfl
    rw [putAt_ok (by omega), ok_bind, putAt_ok (by omega), ok_bind, fill_ok (by omega) (by omega)]
    rfl

/-! ### Bitmaps and paths -/

theorem findFreeBit_from {n : Nat} (hn : n ≤ g.blockSize * 8) :
    ∀ fuel i, i ≤ n → n < i + fuel → findFreeBit g blk n fuel i =
      .ok ((List.range' i (n - i)).find? fun i => !Bitmap.test blk i) := by
  intro fuel
  induction fuel with
  | zero =>
    intro i hi hfuel
    omega
  | succ fuel ih =>
    intro i hi hfuel
    rw [findFreeBit]
    by_cases hlt : i < n
    case neg =>
      rw [if_neg hlt, Nat.sub_eq_zero_of_le (by omega)]
      rfl
    have hrest := ih (i + 1) hlt (by omega)
    rw [if_pos hlt, testAt_ok (by omega), ok_bind, show n - i = n - (i + 1) + 1 by omega,
      List.range'_succ, List.find?_cons]
    cases Bitmap.test blk i with
    | true => exact hrest
    | false => rfl

theorem findFreeBit_ok {n : Nat} (hn : n ≤ g.blockSize * 8) :
    findFreeBit g blk n (n + 1) 0 = .ok (Volume.findFreeBit blk n) := by
  rw [findFreeBit_from hn (n + 1) 0 (by omega) (by omega), Volume.findFreeBit, List.range_eq_range']
  rfl

theorem splitParentChild_ok (path : List (BitVec 8)) :
    splitParentChild path = .ok (Volume.splitParentChild path) := by
  rw [splitParentChild, Volume.splitParentChild]
  refine ite_ok Iff.rfl (fun _ => rfl) fun _ => ?_
  refine ite_ok Iff.rfl (fun _ => rfl) fun hchild => ?_
  rw [check_ok (by omega), ok_bind]
  refine ite_ok Iff.rfl (fun _ => rfl) fun _ => ?_
  refine ite_ok Iff.rfl (fun _ => rfl) fun hparent => ?_
  rw [check_ok (by omega), ok_bind]
  rfl

theorem bgdPlace_ok (group : Nat) :
    bgdPlace g group = .ok (Volume.bgdPlace g group, bgdOffset g group) := by
  have hge := g.blockSize_ge
  rw [bgdPlace, div_ok (by omega), ok_bind, div_ok (by omega), ok_bind, rem_ok (by omega)]
  rfl

end
end Nyx.Ext2.Driver
