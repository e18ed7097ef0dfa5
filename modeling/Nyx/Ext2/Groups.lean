import Nyx.Ext2.Operations

/-! Freeing an inode, and the block groups.

A volume of several groups has a table of descriptors, 32 bytes each, and two bitmaps for each
group. `ext2_free_inode` reads the descriptor and the bitmap of the inode's own group, and
writes the descriptor back as that of group 0, which is right in group 0 only
(`freeInode_local`). -/
namespace Nyx.Ext2
open Nyx.Lib

namespace Geometry
variable (g : Geometry)

theorem bgdPerBlock_eq : g.bgdPerBlock * 32 = g.blockSize := by
  rcases g.blockSize_eq with h | h | h <;> simp [bgdPerBlock, h]

theorem bgdPerBlock_pos : 0 < g.bgdPerBlock := by
  have h := g.bgdPerBlock_eq
  have hge := g.blockSize_ge
  omega

end Geometry

namespace Volume
variable (g : Geometry) (v : Volume)

def blockBitmapOf (group : Nat) : Bytes :=
  v.readBlock g (Bgd.blockBitmap (v.readBlockGroupBgd g group))

def inodeBitmapOf (group : Nat) : Bytes :=
  v.readBlock g (Bgd.inodeBitmap (v.readBlockGroupBgd g group))

/-- The table of descriptors and the bitmaps of `n` groups lie in different blocks of the
volume. -/
structure Grouped (n : Nat) : Prop where
  few : n ≤ 2 ^ 32
  addressable : ∀ b : BitVec 32, b < v.totalBlocks → g.Addressable b
  table : ∀ i < n, bgdPlace g i < v.totalBlocks
  blockBitmap : ∀ i < n, Bgd.blockBitmap (v.readBlockGroupBgd g i) < v.totalBlocks
  inodeBitmap : ∀ i < n, Bgd.inodeBitmap (v.readBlockGroupBgd g i) < v.totalBlocks
  block_ne_table : ∀ i < n, ∀ j < n, Bgd.blockBitmap (v.readBlockGroupBgd g i) ≠ bgdPlace g j
  inode_ne_table : ∀ i < n, ∀ j < n, Bgd.inodeBitmap (v.readBlockGroupBgd g i) ≠ bgdPlace g j
  block_ne_inode : ∀ i < n, ∀ j < n, Bgd.blockBitmap (v.readBlockGroupBgd g i) ≠
    Bgd.inodeBitmap (v.readBlockGroupBgd g j)
  inode_injective : ∀ i < n, ∀ j < n, Bgd.inodeBitmap (v.readBlockGroupBgd g i) =
    Bgd.inodeBitmap (v.readBlockGroupBgd g j) → i = j

/-- The inode is freed in its own group, and nothing happens in the others. -/
structure Freed (v' : Volume) (n : Nat) (ino : BitVec 32) : Prop where
  bit : ∀ i < g.blockSize * 8, Bitmap.test (v'.inodeBitmapOf g (inodeGroup g ino)) i =
    (!decide (i = inodeIndex g ino) && Bitmap.test (v.inodeBitmapOf g (inodeGroup g ino)) i)
  count : Bgd.freeInodesCount (v'.readBlockGroupBgd g (inodeGroup g ino)) =
    Bgd.freeInodesCount (v.readBlockGroupBgd g (inodeGroup g ino)) + 1
  descriptors : ∀ i < n, i ≠ inodeGroup g ino → v'.readBlockGroupBgd g i = v.readBlockGroupBgd g i
  blockBitmaps : ∀ i < n, i ≠ inodeGroup g ino → v'.blockBitmapOf g i = v.blockBitmapOf g i
  inodeBitmaps : ∀ i < n, i ≠ inodeGroup g ino → v'.inodeBitmapOf g i = v.inodeBitmapOf g i

variable {g v}

/-! ### Descriptors -/

theorem bgdOffset_le (group : Nat) : bgdOffset g group + 32 ≤ g.blockSize := by
  have hlt : group % g.bgdPerBlock < g.bgdPerBlock := Nat.mod_lt _ g.bgdPerBlock_pos
  have h := g.bgdPerBlock_eq
  rw [bgdOffset]
  omega

theorem inodeOffset_le (ino : BitVec 32) : inodeOffset g ino + 128 ≤ g.blockSize := by
  have hpos : 0 < g.inodesPerBlock := Nat.div_pos g.inodeSize_le (by have := g.inodeSize_ge; omega)
  have hlt : inodeIndex g ino % g.inodesPerBlock + 1 ≤ g.inodesPerBlock := Nat.mod_lt _ hpos
  calc inodeOffset g ino + 128 ≤ inodeOffset g ino + g.inodeSize := by
        have := g.inodeSize_ge
        omega
    _ = (inodeIndex g ino % g.inodesPerBlock + 1) * g.inodeSize := by
        rw [inodeOffset, Nat.add_mul, Nat.one_mul]
    _ ≤ g.inodesPerBlock * g.inodeSize := Nat.mul_le_mul_right _ hlt
    _ ≤ g.blockSize := Nat.div_mul_le_self ..

theorem bgdPlace_injective {i j : Nat} (hi : i < 2 ^ 32) (hj : j < 2 ^ 32)
    (h : bgdPlace g i = bgdPlace g j) : i / g.bgdPerBlock = j / g.bgdPerBlock := by
  have hof := (BitVec.add_right_inj _).mp h
  have hdiv (k : Nat) (hk : k < 2 ^ 32) : k / g.bgdPerBlock < 2 ^ 32 :=
    Nat.lt_of_le_of_lt (Nat.div_le_self ..) hk
  have hnat := congrArg BitVec.toNat hof
  rwa [BitVec.toNat_ofNat, BitVec.toNat_ofNat, Nat.mod_eq_of_lt (hdiv i hi),
    Nat.mod_eq_of_lt (hdiv j hj)] at hnat

theorem readBlockGroupBgd_congr {v' : Volume} {group : Nat}
    (h : v'.readBlock g (bgdPlace g group) = v.readBlock g (bgdPlace g group)) :
    v'.readBlockGroupBgd g group = v.readBlockGroupBgd g group := by
  rw [readBlockGroupBgd, readBlockGroupBgd, h]

theorem readBlockGroupBgd_writeBgd (group : Nat) (bgd : Bytes) :
    (v.writeBgd g group bgd).readBlockGroupBgd g group = bgd.slice 0 32 := by
  have hle := bgdOffset_le (g := g) group
  simp only [readBlockGroupBgd, writeBgd, readBlock_writeBlock]
  refine Bytes.slice_congr fun i hi => ?_
  rw [Bytes.slice_apply (by omega), Nat.zero_add, Bytes.put_apply_add hi, Nat.zero_add]

theorem readBlockGroupBgd_writeBgd_ne {i j : Nat} (hne : i ≠ j) (hi : i < 2 ^ 32) (hj : j < 2 ^ 32)
    (hai : g.Addressable (bgdPlace g i)) (haj : g.Addressable (bgdPlace g j)) (bgd : Bytes) :
    (v.writeBgd g j bgd).readBlockGroupBgd g i = v.readBlockGroupBgd g i := by
  by_cases hplace : bgdPlace g i = bgdPlace g j
  · -- Both descriptors are in one block, at different places.
    have hdiv := bgdPlace_injective hi hj hplace
    have hmod : i % g.bgdPerBlock ≠ j % g.bgdPerBlock := by
      intro hmod
      exact hne (by rw [← Nat.div_add_mod i g.bgdPerBlock, ← Nat.div_add_mod j g.bgdPerBlock, hdiv, hmod])
    have hle := bgdOffset_le (g := g) i
    simp only [readBlockGroupBgd, writeBgd, hplace, readBlock_writeBlock]
    refine Bytes.slice_congr fun k hk => ?_
    rw [Bytes.slice_apply (by omega), Nat.zero_add, Bytes.put_apply_out]
    rw [bgdOffset, bgdOffset]
    omega
  · exact readBlockGroupBgd_congr (readBlock_writeBlock_ne hplace haj hai)

/-! ### Freeing an inode -/

theorem test_slice {bitmap : Bytes} {n i : Nat} (hi : i < n * 8) :
    Bitmap.test (bitmap.slice 0 n) i = Bitmap.test bitmap i := by
  rw [Bitmap.test, Bitmap.test, Bytes.slice_apply (by omega), Nat.zero_add]

theorem Grouped.readBgd_writeBitmap {n : Nat} (h : v.Grouped g n) {i j : Nat} (hi : i < n)
    (hj : j < n) (data : Bytes) :
    (v.writeBlock g (Bgd.inodeBitmap (v.readBlockGroupBgd g i)) data).readBlockGroupBgd g j =
      v.readBlockGroupBgd g j :=
  readBlockGroupBgd_congr (readBlock_writeBlock_ne (h.inode_ne_table i hi j hj).symm
    (h.addressable _ (h.inodeBitmap i hi)) (h.addressable _ (h.table j hj)))

/-- Whatever the group of the inode, only the descriptor of group 0 is written. -/
theorem Grouped.readBgd_freeInode {n : Nat} (h : v.Grouped g n) {ino : BitVec 32}
    (hn : inodeGroup g ino < n) {i : Nat} (hi : i < n) (h0 : i ≠ 0) :
    (v.freeInode g ino).readBlockGroupBgd g i = v.readBlockGroupBgd g i := by
  have hfew := h.few
  simp only [freeInode]
  split
  · rfl
  split
  · refine Eq.trans (readBlockGroupBgd_writeBgd_ne h0 (by omega) (by omega)
      (h.addressable _ (h.table i hi)) (h.addressable _ (h.table 0 (by omega))) _) ?_
    exact h.readBgd_writeBitmap hn hi _
  · rfl

theorem Grouped.freed {n : Nat} (h : v.Grouped g n) {ino : BitVec 32} (hroot : rootIno ≤ ino)
    (hgroup : inodeGroup g ino = 0) (hn : 0 < n)
    (hused : Bitmap.test (v.inodeBitmapOf g 0) (inodeIndex g ino) = true) :
    v.Freed g (v.freeInode g ino) n ino := by
  have hlt : ¬ ino < rootIno := BitVec.not_lt.mpr hroot
  generalize hbgd : v.readBlockGroupBgd g 0 = bgd
  generalize hv₁ : v.writeBlock g (Bgd.inodeBitmap bgd)
    (Bitmap.clear (v.inodeBitmapOf g 0) (inodeIndex g ino)) = v₁
  generalize hbgd' : bgd.set16 14 (Bgd.freeInodesCount bgd + 1) = bgd'
  have hfreed : v.freeInode g ino =
      (v₁.writeBgd g 0 bgd').setFreeInodes ((v₁.writeBgd g 0 bgd').freeInodes + 1) := by
    rw [inodeBitmapOf, hbgd] at hused hv₁
    simp only [freeInode, if_neg hlt, hgroup, hbgd, hused, if_true, hv₁, hbgd']
  have hread (b : BitVec 32) : (v.freeInode g ino).readBlock g b = (v₁.writeBgd g 0 bgd').readBlock g b := by
    rw [hfreed]
    rfl
  have hself : (v.freeInode g ino).readBlockGroupBgd g 0 = bgd'.slice 0 32 :=
    (readBlockGroupBgd_congr (hread _)).trans (readBlockGroupBgd_writeBgd 0 bgd')
  have hothers (i : Nat) (hi : i < n) (h0 : i ≠ 0) :
      (v.freeInode g ino).readBlockGroupBgd g i = v.readBlockGroupBgd g i :=
    h.readBgd_freeInode (hgroup ▸ hn) hi h0
  -- A block outside the table that is not the bitmap of group 0.
  have hkept (b : BitVec 32) (hb : b < v.totalBlocks) (htable : b ≠ bgdPlace g 0)
      (hbitmap : b ≠ Bgd.inodeBitmap bgd) : (v.freeInode g ino).readBlock g b = v.readBlock g b := by
    rw [hread, writeBgd, readBlock_writeBlock_ne htable (h.addressable _ (h.table 0 hn))
      (h.addressable _ hb), ← hv₁, readBlock_writeBlock_ne hbitmap ?_ (h.addressable _ hb)]
    rw [← hbgd]
    exact h.addressable _ (h.inodeBitmap 0 hn)
  constructor
  case bit =>
    intro i hi
    have hplace : Bgd.inodeBitmap ((v.freeInode g ino).readBlockGroupBgd g 0) = Bgd.inodeBitmap bgd := by
      rw [hself, Bgd.inodeBitmap, Bytes.u32_slice (by omega), ← hbgd', Bytes.set16,
        Bytes.u32_put_ne (by omega)]
      rfl
    have hne : Bgd.inodeBitmap bgd ≠ bgdPlace g 0 := hbgd ▸ h.inode_ne_table 0 hn 0 hn
    have haddr : g.Addressable (Bgd.inodeBitmap bgd) := hbgd ▸ h.addressable _ (h.inodeBitmap 0 hn)
    rw [hgroup, inodeBitmapOf, hplace, hread, writeBgd,
      readBlock_writeBlock_ne hne (h.addressable _ (h.table 0 hn)) haddr, ← hv₁,
      readBlock_writeBlock, test_slice hi, Bitmap.test_clear (by omega)]
  case count =>
    rw [hgroup, hself, hbgd, Bgd.freeInodesCount, Bytes.u16_slice (by omega), ← hbgd']
    exact Bytes.u16_set16 _
  case descriptors =>
    intro i hi hne
    exact hothers i hi (hgroup ▸ hne)
  case blockBitmaps =>
    intro i hi hne
    rw [blockBitmapOf, blockBitmapOf, hothers i hi (hgroup ▸ hne)]
    exact hkept _ (h.blockBitmap i hi) (h.block_ne_table i hi 0 hn)
      (hbgd ▸ h.block_ne_inode i hi 0 hn)
  case inodeBitmaps =>
    intro i hi hne
    rw [inodeBitmapOf, inodeBitmapOf, hothers i hi (hgroup ▸ hne)]
    refine hkept _ (h.inodeBitmap i hi) (h.inode_ne_table i hi 0 hn) fun he => ?_
    exact (hgroup ▸ hne) (h.inode_injective i hi 0 hn (hbgd ▸ he))

/-- An inode is freed as it should be exactly if it is in group 0, in use, and not one of those that
`ext2_free_inode` ignores. -/
theorem freeInode_local {n : Nat} (h : v.Grouped g n) {ino : BitVec 32} (hn : inodeGroup g ino < n) :
    v.Freed g (v.freeInode g ino) n ino ↔ inodeGroup g ino = 0 ∧ rootIno ≤ ino ∧
      Bitmap.test (v.inodeBitmapOf g 0) (inodeIndex g ino) = true := by
  refine ⟨fun hf => ?_, fun ⟨hgroup, hroot, hused⟩ => h.freed hroot hgroup (by omega) hused⟩
  -- In every other case the count of the inode's group stays.
  have hcount : (v.freeInode g ino).readBlockGroupBgd g (inodeGroup g ino) ≠
      v.readBlockGroupBgd g (inodeGroup g ino) := fun he => by
    have hnext := hf.count
    rw [he] at hnext
    bv_omega
  have hgroup : inodeGroup g ino = 0 := by_contra fun h0 => hcount (h.readBgd_freeInode hn hn h0)
  refine ⟨hgroup, BitVec.not_lt.mp fun hroot => hcount ?_, by_contra fun hused => hcount ?_⟩
  · rw [freeInode, if_pos hroot]
  · rw [inodeBitmapOf, ← hgroup] at hused
    simp only [freeInode, if_neg hused, ite_self]

/-! ### Two groups -/

/-- Groups of 16 blocks and 8 inodes, in blocks of 1024 bytes. -/
def pair : Geometry :=
  ⟨0, 1024, 8, 16, 128, .inl rfl, by decide, by decide, by decide, by decide, by decide, by decide⟩

/-- The superblock, the descriptors, and the bitmaps of two groups. In group 0 blocks 1 to 6 are
in use and all inodes, in group 1 blocks 17 to 19 and inodes 9 to 11. -/
def pairBlocks : Nat → Bytes
  | 1 =>
    let sb := ((((Bytes.zero.set32 4 33).set32 12 23).set32 16 5).set32 20 1).set32 32 16
    (sb.set32 40 8).set16 56 superMagic
  | 2 =>
    let group0 := (((Bytes.zero.set32 0 3).set32 4 4).set32 8 5).set16 12 10
    let group1 := (((group0.set32 32 17).set32 36 18).set32 40 19).set16 44 13
    group1.set16 46 5
  | 3 => fun i => if i = 0 then 0x3F else if i = 1 then 0 else 0xFF
  | 17 => fun i => if i = 0 then 0x07 else if i = 1 then 0 else 0xFF
  | 18 => fun i => if i = 0 then 0x07 else 0xFF
  | 4 => fun _ => 0xFF
  | _ => .zero

def paired : Volume := ⟨readSuperblock 0 (.ofBlocks pairBlocks), .ofBlocks pairBlocks⟩

theorem grouped_paired : paired.Grouped pair 2 where
  few := by decide
  addressable b hb := by
    have htotal : paired.totalBlocks = 33 := by decide +kernel
    rw [htotal, BitVec.lt_def] at hb
    have h33 : (33 : BitVec 32).toNat = 33 := rfl
    have hsectors : pair.sectors = 2 := rfl
    rw [Geometry.Addressable, hsectors]
    omega
  table := by decide +kernel
  blockBitmap := by decide +kernel
  inodeBitmap := by decide +kernel
  block_ne_table := by decide +kernel
  inode_ne_table := by decide +kernel
  block_ne_inode := by decide +kernel
  inode_injective := by decide +kernel

theorem freeInode_local_paired : paired.Freed pair (paired.freeInode pair 3) 2 3 :=
  (freeInode_local grouped_paired (by decide)).mpr ⟨by decide, by decide, by decide +kernel⟩

/-- Inode 11 is in group 1. The descriptor of group 0 becomes that of group 1, and the count of
group 1 stays 5. -/
theorem freeInode_overwrites_group0 : paired.Grouped pair 2 ∧ inodeGroup pair 11 = 1 ∧
      Bitmap.test (paired.inodeBitmapOf pair 1) (inodeIndex pair 11) = true ∧
      Bgd.inodeBitmap ((paired.freeInode pair 11).readBlockGroupBgd pair 0) = 18 ∧
      Bgd.freeInodesCount ((paired.freeInode pair 11).readBlockGroupBgd pair 1) = 5 ∧
      ¬ paired.Freed pair (paired.freeInode pair 11) 2 11 := by
  refine ⟨grouped_paired, by decide, by decide +kernel, by decide +kernel, by decide +kernel, ?_⟩
  intro h
  have hsame := congrArg Bgd.inodeBitmap (h.descriptors 0 (by decide) (by decide))
  revert hsame
  decide +kernel

end Volume
end Nyx.Ext2
