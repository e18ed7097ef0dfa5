import Mathlib

/-! Ring buffers.

A ring is an array of `n` cells, the position of its oldest element and the number of elements;
`contents` reads them off, oldest first. Storing past the newest appends to the contents as long
as a cell is free, and moving the position on drops the oldest. -/
namespace Nyx.Lib.Ring
open List

variable {α : Type} {n : Nat} [NeZero n]

/-- The cell at a position that runs around the ring. -/
def cell (i : Nat) : Fin n := Fin.ofNat n i

def contents (buf : Fin n → α) (head count : Nat) : List α :=
  (List.range count).map fun j => buf (cell (head + j))

variable (buf : Fin n → α) (head count : Nat)

@[simp] theorem length_contents : (contents buf head count).length = count := by
  rw [contents, length_map, length_range]

theorem contents_eq_nil {buf : Fin n → α} {head count : Nat} :
    contents buf head count = [] ↔ count = 0 := by
  rw [← length_eq_zero_iff, length_contents]

theorem cell_mod (i : Nat) : (cell (i % n) : Fin n) = cell i := Fin.ext (Nat.mod_mod i n)

/-- Positions less than a round apart are different cells. -/
theorem cell_ne {i j : Nat} (hij : i < j) (hround : j < i + n) : (cell i : Fin n) ≠ cell j := by
  intro he
  have hmod : i % n = j % n := congrArg Fin.val he
  have hdvd : n ∣ j - i := (Nat.modEq_iff_dvd' hij.le).mp hmod
  have hle : n ≤ j - i := Nat.le_of_dvd (by omega) hdvd
  omega

theorem contents_push (head : Nat) {count : Nat} (hroom : count < n) (a : α) :
    contents (Function.update buf (cell (head + count)) a) head (count + 1) =
      contents buf head count ++ [a] := by
  rw [contents, range_succ, map_append, map_singleton, Function.update_self]
  congr 1
  refine map_congr_left fun j hj => ?_
  have hlt : j < count := mem_range.mp hj
  exact Function.update_of_ne (cell_ne (by omega) (by omega)) ..

theorem contents_pop : contents buf head (count + 1) =
      buf (cell head) :: contents buf ((head + 1) % n) count := by
  rw [contents, range_succ_eq_map, map_cons, map_map, Nat.add_zero]
  congr 1
  refine map_congr_left fun j _ => ?_
  have hnext : (cell ((head + 1) % n + j) : Fin n) = cell (head + (j + 1)) := by
    rw [← cell_mod, Nat.mod_add_mod, cell_mod]
    congr 1
    omega
  exact congrArg buf hnext.symm

end Nyx.Lib.Ring
