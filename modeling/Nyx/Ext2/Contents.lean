import Nyx.Ext2.Transparent

/-! The contents of a file, and what `ext2_read_file` returns of them. -/
namespace Nyx.Ext2.Volume
open Nyx.Lib

variable {g : Geometry} {v : Volume} {inode : Bytes}

/-- The bytes of the blocks of a file, in order. A hole, which has no block, is zeros. -/
def contents (g : Geometry) (v : Volume) (inode : Bytes) : Bytes := fun k =>
  match v.inodeBlock g inode (BitVec.ofNat 32 (k / g.blockSize)) with
  | none => 0
  | some b => v.readBlock g b (k % g.blockSize)

/-- No hole begins before byte `n`. -/
def Dense (g : Geometry) (v : Volume) (inode : Bytes) (n : Nat) : Prop :=
  ∀ i, i * g.blockSize < n → v.inodeBlock g inode (BitVec.ofNat 32 i) ≠ none

theorem length_list (b : Bytes) (o n : Nat) : (b.list o n).length = n := by
  rw [Bytes.list, List.length_map, List.length_range]

theorem list_append (b : Bytes) (o n m : Nat) : b.list o (n + m) = b.list o n ++ b.list (o + n) m := by
  simp only [Bytes.list, List.range_add, List.map_append, List.map_map, Nat.add_assoc]
  rfl

theorem contents_block {iblock b : BitVec 32} (hb : v.inodeBlock g inode iblock = some b) {n : Nat}
    (hn : n ≤ g.blockSize) :
    (v.contents g inode).list (iblock.toNat * g.blockSize) n = (v.readBlock g b).list 0 n := by
  refine List.map_congr_left fun k hk => ?_
  have hk' : k < g.blockSize := (List.mem_range.mp hk).trans_le hn
  rw [contents, Nat.mul_comm, Nat.mul_add_div (by omega), Nat.mul_add_mod, Nat.div_eq_of_lt hk',
    Nat.mod_eq_of_lt hk', Nat.add_zero, BitVec.ofNat_toNat, BitVec.setWidth_eq, hb, Nat.zero_add]

/-- The loop over the blocks copies the file from the block it is at. -/
theorem readBlocks_eq (fuel : Nat) : ∀ {iblock : BitVec 32} {n : Nat},
    Dense g v inode (iblock.toNat * g.blockSize + n) → iblock.toNat < blockFuel g →
    blockFuel g ≤ iblock.toNat + fuel →
    v.readBlocks g inode fuel iblock n =
      (v.contents g inode).list (iblock.toNat * g.blockSize) n := by
  induction fuel with
  | zero => intro iblock n _ hlt hfuel; omega
  | succ fuel ih =>
    intro iblock n hdense hlt hfuel
    rw [readBlocks]
    split
    case isTrue hn => rw [hn]; rfl
    case isFalse hn =>
      have hsome := hdense iblock.toNat (by omega)
      rw [BitVec.ofNat_toNat, BitVec.setWidth_eq] at hsome
      obtain ⟨b, hb⟩ := Option.ne_none_iff_exists'.mp hsome
      have hnext := Driver.toNat_add_one_of_inodeBlock hb
      have hlast := Driver.lt_of_inodeBlock hb
      have hmin : min n g.blockSize ≤ g.blockSize := Nat.min_le_right ..
      simp only [hb]
      rw [← contents_block hb hmin]
      by_cases hmore : n ≤ g.blockSize
      · -- the last block
        rw [Nat.min_eq_left hmore, Nat.sub_self]
        cases fuel with
        | zero => omega
        | succ fuel => rw [readBlocks, if_pos rfl, List.append_nil]
      · have hstart : iblock.toNat * g.blockSize + g.blockSize = (iblock + 1).toNat * g.blockSize := by
          rw [hnext, Nat.add_one_mul]
        rw [Nat.min_eq_right (by omega), ih (by rwa [← hstart, Nat.add_assoc,
            Nat.add_sub_cancel' (by omega)]) (by omega) (by omega), ← hstart, ← list_append,
          Nat.add_sub_cancel' (by omega)]

/-- A hole ends the copy, which is then shorter than what was asked for. -/
theorem length_readBlocks_lt {j : BitVec 32} (hole : v.inodeBlock g inode j = none) (fuel : Nat) :
    ∀ {iblock : BitVec 32} {n : Nat}, iblock.toNat ≤ j.toNat →
      j.toNat * g.blockSize < iblock.toNat * g.blockSize + n →
      (v.readBlocks g inode fuel iblock n).length < n := by
  induction fuel with
  | zero =>
    intro iblock n hle hlt
    have := Nat.mul_le_mul_right g.blockSize hle
    exact Nat.pos_of_ne_zero (by omega)
  | succ fuel ih =>
    intro iblock n hle hlt
    have hbefore := Nat.mul_le_mul_right g.blockSize hle
    rw [readBlocks, if_neg (by omega)]
    split
    · exact Nat.pos_of_ne_zero (by omega)
    case h_2 b hb =>
      have hne : iblock ≠ j := fun he => by simp [he, hole] at hb
      have hnext := Driver.toNat_add_one_of_inodeBlock hb
      have hstep : (iblock + 1).toNat ≤ j.toNat := by bv_omega
      have hfull := Nat.mul_le_mul_right g.blockSize hstep
      rw [hnext, Nat.add_one_mul] at hfull
      have hrest := ih (n := n - g.blockSize) hstep (by rw [hnext, Nat.add_one_mul]; omega)
      rw [Nat.min_eq_right (by omega), List.length_append, length_list]
      omega

/-- The forged image with a hole for the only block of `/f`. -/
def sparseBlocks : Nat → Bytes := Function.update forgedBlocks 5 ((forgedBlocks 5).set32 296 0)

def sparse : Volume := ⟨readSuperblock 0 (.ofBlocks sparseBlocks), .ofBlocks sparseBlocks⟩

end Nyx.Ext2.Volume
