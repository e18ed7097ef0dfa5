import Mathlib

/-! Counting the cells that hold a thing of some kind.

A cell is empty or holds a thing; `holders` is the set of the cells that hold one with the
property `P`. Filling empty cells adds to its size and emptying them takes away
(`encard_fill`): a counter raised and lowered with every copy counts the holders. -/
namespace Nyx.Lib
open Function

variable {α β : Type} [DecidableEq α] {cell : α → Option β} {P : β → Bool} {x : α} {h : β}

def holders (cell : α → Option β) (P : β → Bool) : Set α := {x | ∃ h, cell x = some h ∧ P h = true}

theorem encard_put (hfree : cell x = none) : (holders (update cell x (some h)) P).encard =
      (holders cell P).encard + if P h then 1 else 0 := by
  have hout : x ∉ holders cell P := by
    rintro ⟨h', hin, _⟩
    rw [hfree] at hin
    cases hin
  have hother {y : α} (hy : y ≠ x) :
      y ∈ holders (update cell x (some h)) P ↔ y ∈ holders cell P := by
    simp only [holders, Set.mem_ofPred_eq, update_of_ne hy]
  have hself : x ∈ holders (update cell x (some h)) P ↔ P h = true := by
    simp only [holders, Set.mem_ofPred_eq, update_self, Option.some.injEq, exists_eq_left']
  split
  case isTrue hp =>
    have hinsert : holders (update cell x (some h)) P = insert x (holders cell P) := by
      ext y
      rcases eq_or_ne y x with rfl | hy
      · exact iff_of_true (hself.mpr hp) (Set.mem_insert ..)
      · rw [hother hy, Set.mem_insert_iff, or_iff_right hy]
    rw [hinsert, Set.encard_insert_of_notMem hout]
  case isFalse hp =>
    have hsame : holders (update cell x (some h)) P = holders cell P := by
      ext y
      rcases eq_or_ne y x with rfl | hy
      · exact iff_of_false (fun hin => hp (hself.mp hin)) hout
      · exact hother hy
    rw [hsame, add_zero]

theorem encard_clear (hin : cell x = some h) : (holders cell P).encard =
      (holders (update cell x none) P).encard + if P h then 1 else 0 := by
  have hfilled : update (update cell x none) x (some h) = cell := by
    rw [update_idem, Function.update_eq_self_iff]
    exact hin.symm
  have hput := encard_put (P := P) (h := h) (update_self x none cell)
  rwa [hfilled] at hput

/-- The cells of a list are filled, all at once. -/
def fill (cell : α → Option β) (thing : α → β) (l : List α) : α → Option β :=
  fun x => if x ∈ l then some (thing x) else cell x

theorem encard_fill (thing : α → β) {l : List α} (hl : l.Nodup) (hfree : ∀ x ∈ l, cell x = none) :
    (holders (fill cell thing l) P).encard =
      (holders cell P).encard + ((l.map thing).countP P : ℕ) := by
  induction l with
  | nil =>
    have hsame : fill cell thing [] = cell := funext fun x => if_neg List.not_mem_nil
    rw [hsame, List.map_nil, List.countP_nil, Nat.cast_zero, add_zero]
  | cons x rest ih =>
    rw [List.nodup_cons] at hl
    have hrest := ih hl.2 fun y hy => hfree y (.tail x hy)
    have hstep : fill cell thing (x :: rest) =
        update (fill cell thing rest) x (some (thing x)) := by
      funext y
      rcases eq_or_ne y x with rfl | hy
      · simp [fill]
      · simp only [fill, List.mem_cons, hy, false_or, update_of_ne hy]
    have hempty : fill cell thing rest x = none := (if_neg hl.1).trans (hfree x (.head rest))
    rw [hstep, encard_put hempty, hrest, List.map_cons, List.countP_cons, add_assoc]
    split <;> simp

omit [DecidableEq α] in
theorem holders_none : holders (fun _ : α => (none : Option β)) P = ∅ := by
  ext x
  simp [holders]

/-- A counter of holders and others, once `k` of the others are gone. -/
theorem counter_sub {e : ℕ∞} {r c k : ℕ} (hr : (r : ℕ∞) = e + (c + k : ℕ)) :
    ((r - k : ℕ) : ℕ∞) = e + c := by
  have hfin : e ≠ ⊤ := by
    rintro rfl
    exact ENat.natCast_ne_top r (hr.trans (top_add _))
  lift e to ℕ using hfin
  norm_cast at hr ⊢
  omega

end Nyx.Lib
