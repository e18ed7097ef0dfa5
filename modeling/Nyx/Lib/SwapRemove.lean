import Mathlib

/-! Removal from an unordered array: the last element takes the place of the removed one.
On a list without repetitions exactly the removed element goes. -/
namespace Nyx.Lib
open List

variable {α : Type} {l : List α} {i : Nat} {x y : α}

/-- `l[i] = l[--n]`. -/
def swapRemove (l : List α) (i : Nat) : List α :=
  match l.getLast? with
  | none => []
  | some last => (l.set i last).dropLast

theorem swapRemove_concat (m : List α) (z : α) (i : Nat) : swapRemove (m ++ [z]) i = m.set i z := by
  unfold swapRemove
  rw [getLast?_concat]
  show ((m ++ [z]).set i z).dropLast = m.set i z
  rcases Nat.lt_or_ge i m.length with h | h
  · simp [set_append_left _ _ h]
  rw [set_append_right _ _ h, set_eq_of_length_le h]
  cases i - m.length <;> simp

theorem split_getElem? (h : l[i]? = some x) : ∃ a b, l = a ++ x :: b ∧ a.length = i := by
  obtain ⟨hi, hx⟩ := List.getElem?_eq_some_iff.mp h
  refine ⟨l.take i, l.drop (i + 1), ?_, List.length_take_of_le (Nat.le_of_lt hi)⟩
  rw [← hx, List.getElem_cons_drop, List.take_append_drop]

/-- Up to order, the list is the removed element and the rest. -/
theorem swapRemove_perm (h : l[i]? = some x) : l.Perm (x :: swapRemove l i) := by
  rcases eq_nil_or_concat' l with rfl | ⟨m, z, rfl⟩
  · simp at h
  rw [swapRemove_concat]
  rcases Nat.lt_or_ge i m.length with hlt | hge
  · rw [getElem?_append_left hlt] at h
    obtain ⟨a, b, rfl, rfl⟩ := split_getElem? h
    rw [set_append_right _ _ (Nat.le_refl _), Nat.sub_self, set_cons_zero]
    calc a ++ x :: b ++ [z] = a ++ x :: (b ++ [z]) := by simp
      _ |>.Perm (x :: (a ++ (b ++ [z]))) := List.perm_middle
      _ |>.Perm (x :: (a ++ z :: b)) := ((List.perm_append_singleton z b).append_left a).cons x
  · obtain ⟨hi, hx⟩ := List.getElem?_eq_some_iff.mp h
    have hlast : i = m.length := by
      rw [List.length_append, List.length_singleton] at hi
      omega
    subst hlast
    rw [getElem_concat_length rfl] at hx
    rw [set_eq_of_length_le (Nat.le_refl _), hx]
    exact perm_append_singleton x m

theorem nodup_swapRemove (hl : l.Nodup) (h : l[i]? = some x) : (swapRemove l i).Nodup :=
  (nodup_cons.mp ((swapRemove_perm h).nodup_iff.mp hl)).2

theorem mem_swapRemove_of_ne (h : l[i]? = some x) (hy : y ∈ l) (hne : y ≠ x) : y ∈ swapRemove l i :=
  (mem_cons.mp ((swapRemove_perm h).mem_iff.mp hy)).resolve_left hne

theorem mem_swapRemove (hl : l.Nodup) (h : l[i]? = some x) :
    y ∈ swapRemove l i ↔ y ∈ l ∧ y ≠ x := by
  have hperm := swapRemove_perm h
  have hx := (nodup_cons.mp (hperm.nodup_iff.mp hl)).1
  rw [hperm.mem_iff, mem_cons]
  refine ⟨fun hy => ⟨.inr hy, fun he => hx (he ▸ hy)⟩, fun hy => hy.1.resolve_left hy.2⟩

/-! ### Positions -/

theorem swapRemove_getElem?_ne {j : Nat} (hj : j ≠ i) (hlast : j + 1 ≠ l.length) :
    (swapRemove l i)[j]? = l[j]? := by
  rcases eq_nil_or_concat' l with rfl | ⟨m, z, rfl⟩
  · rfl
  rw [swapRemove_concat, getElem?_set_ne hj.symm]
  rw [length_append, length_singleton] at hlast
  rcases Nat.lt_or_gt_of_ne (fun he => hlast (congrArg (· + 1) he)) with hlt | hgt
  · rw [getElem?_append_left hlt]
  have hlen : (m ++ [z]).length ≤ j := by rwa [length_append, length_singleton]
  rw [getElem?_eq_none (Nat.le_of_lt hgt), getElem?_eq_none hlen]

/-- The last element is found where the removed one was. -/
theorem swapRemove_getElem?_self (hi : i + 1 < l.length) :
    (swapRemove l i)[i]? = l[l.length - 1]? := by
  rcases eq_nil_or_concat' l with rfl | ⟨m, z, rfl⟩
  · simp at hi
  rw [length_append, length_singleton] at hi ⊢
  rw [swapRemove_concat, Nat.add_sub_cancel, getElem?_concat_length,
    getElem?_set_self (Nat.lt_of_succ_lt_succ hi)]

theorem length_swapRemove : (swapRemove l i).length = l.length - 1 := by
  rcases eq_nil_or_concat' l with rfl | ⟨m, z, rfl⟩
  · rfl
  rw [swapRemove_concat, length_set, length_append, length_singleton,
    Nat.add_sub_cancel]

end Nyx.Lib
