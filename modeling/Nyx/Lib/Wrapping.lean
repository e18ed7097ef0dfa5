import Mathlib

/-! Numbers of a fixed width: deadlines on a counter that wraps, and rounding to pages.

A counter of `w` bits counts time and a deadline is a value of it. The usual test, on their
difference as a signed number, is right about deadlines at most half a turn ahead, and until
half a turn after they have passed. -/
namespace Nyx.Lib
open BitVec

/-- `(int)(tick - deadline) >= 0`. -/
def reached {w : Nat} (tick deadline : BitVec w) : Bool := (0#w).sle (tick - deadline)

theorem reached_iff {w : Nat} (t e d : Nat) :
    reached (BitVec.ofNat w (t + e)) (BitVec.ofNat w (t + d)) = true ↔
      0 ≤ ((e : Int) - d).bmod (2 ^ w) := by
  have hdiff : ((t + e : Nat) : Int) - (t + d : Nat) = e - d := by
    push_cast
    ring
  rw [reached, sle_iff_toInt_le, toInt_zero, toInt_sub, toInt_ofNat',
    toInt_ofNat', Int.bmod_sub_bmod, Int.sub_bmod_bmod, hdiff]

/-- A deadline at most half a turn ahead is not reached before its time. -/
theorem not_reached {w t e d : Nat} (hearly : e < d) (hd : 2 * d ≤ 2 ^ w) :
    reached (BitVec.ofNat w (t + e)) (BitVec.ofNat w (t + d)) = false := by
  rw [Bool.eq_false_iff, ne_eq, reached_iff, Int.bmod_eq_of_le_mul_two (by omega) (by omega)]
  omega

/-- And it is reached from then on, for half a turn. -/
theorem reached_of_le {w t e d : Nat} (hd : d ≤ e) (he : 2 * e < 2 * d + 2 ^ w) :
    reached (BitVec.ofNat w (t + e)) (BitVec.ofNat w (t + d)) = true := by
  rw [reached_iff, Int.bmod_eq_of_le_mul_two (by omega) (by omega)]
  omega

/-! ### Rounding -/

theorem toNat_and_not_mask {w : Nat} (x : BitVec w) (k : Nat) :
    (x &&& ~~~BitVec.ofNat w (2 ^ k - 1)).toNat = x.toNat / 2 ^ k * 2 ^ k := by
  have hshift : x &&& ~~~BitVec.ofNat w (2 ^ k - 1) = x >>> k <<< k := by
    ext i hi
    rw [getElem_and, getElem_not, getElem_shiftLeft,
      getElem_ushiftRight, ← getLsbD_eq_getElem hi, ← getLsbD_eq_getElem hi,
      getLsbD_ofNat, Nat.testBit_two_pow_sub_one]
    by_cases hb : i < k
    · simp [hb, hi]
    · simp [hb, show k + (i - k) = i by omega]
  have hle : x.toNat / 2 ^ k * 2 ^ k < 2 ^ w := Nat.lt_of_le_of_lt (Nat.div_mul_le_self ..) x.isLt
  rw [hshift, toNat_shiftLeft, toNat_ushiftRight, Nat.shiftLeft_eq,
    Nat.shiftRight_eq_div_pow, Nat.mod_eq_of_lt hle]

theorem toNat_and_not_low (x : BitVec 64) : (x &&& ~~~0xFFF#64).toNat = x.toNat / 4096 * 4096 :=
  toNat_and_not_mask x 12

end Nyx.Lib
