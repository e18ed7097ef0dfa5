import Mathlib

/-! Bytes in memory, and little-endian fields in them.

A piece of memory is a function from offsets to bytes. `put` copies a piece into another and
`slice` takes one out, as `memcpy` does; a field of 16 or 32 bits is read with `u16` and `u32` and
written as the `put` of its bytes. A field is unchanged by a `put` elsewhere (`u32_put_ne`) and
moves with a `put` over all of it (`u32_put_add`). -/
namespace Nyx.Lib

abbrev Bytes := Nat → BitVec 8

namespace Bytes

def zero : Bytes := fun _ => 0

/-- `n` bytes of `b` from `o` on. -/
def slice (b : Bytes) (o n : Nat) : Bytes := fun i => if i < n then b (o + i) else 0

/-- The first `n` bytes of `src` copied to `o`. -/
def put (b : Bytes) (o n : Nat) (src : Bytes) : Bytes :=
  fun i => if o ≤ i ∧ i < o + n then src (i - o) else b i

def u16 (b : Bytes) (o : Nat) : BitVec 16 := b (o + 1) ++ b o

def u32 (b : Bytes) (o : Nat) : BitVec 32 := b (o + 3) ++ b (o + 2) ++ b (o + 1) ++ b o

/-- The bytes of a number, the lowest first. -/
def le {w : Nat} (v : BitVec w) : Bytes := fun i => (v >>> (8 * i)).setWidth 8

def set8 (b : Bytes) (o : Nat) (v : BitVec 8) : Bytes := b.put o 1 (le v)
def set16 (b : Bytes) (o : Nat) (v : BitVec 16) : Bytes := b.put o 2 (le v)
def set32 (b : Bytes) (o : Nat) (v : BitVec 32) : Bytes := b.put o 4 (le v)

/-- The bytes of a list, then zeros. -/
def ofList (l : List (BitVec 8)) : Bytes := fun i => l.getD i 0

/-- `n` bytes from `o` on, as a list. -/
def list (b : Bytes) (o n : Nat) : List (BitVec 8) := (List.range n).map fun i => b (o + i)

variable {b b' src : Bytes} {o n p k i : Nat}

/-! ### Single bytes -/

theorem slice_apply (h : i < n) : b.slice o n i = b (o + i) := if_pos h

theorem slice_congr (h : ∀ i < n, b (o + i) = b' (p + i)) : b.slice o n = b'.slice p n := by
  funext i
  rw [slice, slice]
  split
  case isTrue hi => exact h i hi
  case isFalse => rfl

theorem put_apply_in (h : o ≤ i) (h' : i < o + n) : b.put o n src i = src (i - o) := if_pos ⟨h, h'⟩

theorem put_apply_add (h : k < n) : b.put o n src (o + k) = src k := by
  rw [put_apply_in (Nat.le_add_right o k) (by omega), Nat.add_sub_cancel_left]

theorem put_apply_out (h : i < o ∨ o + n ≤ i) : b.put o n src i = b i := if_neg (by omega)

/-! ### Fields -/

theorem u16_congr (h : ∀ i < 2, b (o + i) = b' (p + i)) : b.u16 o = b'.u16 p := by
  rw [u16, u16, h 1 (by omega), show b o = b' p from h 0 (by omega)]

theorem u32_congr (h : ∀ i < 4, b (o + i) = b' (p + i)) : b.u32 o = b'.u32 p := by
  rw [u32, u32, h 3 (by omega), h 2 (by omega), h 1 (by omega), show b o = b' p from h 0 (by omega)]

theorem u16_le (v : BitVec 16) : u16 (le v) 0 = v := by
  apply BitVec.eq_of_getLsbD_eq
  intro i hi
  simp only [u16, le, BitVec.getLsbD_append, BitVec.getLsbD_setWidth, BitVec.getLsbD_ushiftRight]
  by_cases h8 : i < 8
  · simp [h8]
  · simp [h8, show i - 8 < 8 by omega, show 8 + (i - 8) = i by omega]

theorem u16_slice (h : k + 2 ≤ n) : (b.slice o n).u16 k = b.u16 (o + k) :=
  u16_congr fun i hi => by rw [slice_apply (by omega), Nat.add_assoc]

theorem u32_slice (h : k + 4 ≤ n) : (b.slice o n).u32 k = b.u32 (o + k) :=
  u32_congr fun i hi => by rw [slice_apply (by omega), Nat.add_assoc]

theorem u32_put_ne (h : p + 4 ≤ o ∨ o + n ≤ p) : (b.put o n src).u32 p = b.u32 p :=
  u32_congr fun i hi => put_apply_out (by omega)

theorem u16_put_add (h : k + 2 ≤ n) : (b.put o n src).u16 (o + k) = src.u16 k :=
  u16_congr fun i hi => by rw [Nat.add_assoc, put_apply_add (by omega)]

theorem u16_set16 (v : BitVec 16) : (b.set16 o v).u16 o = v :=
  (u16_put_add (k := 0) (by omega)).trans (u16_le v)

end Bytes
end Nyx.Lib
