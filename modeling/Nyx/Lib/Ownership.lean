import Mathlib

/-! Exclusive ownership of blocks.

Places (`ι`) hold blocks (`β`), or nothing, written 0. Over a set of places ownership is
exclusive when no block is held at two of them and every held block is allocated
(`Exclusive`). A place under construction is left out of the set until it is filled, one being
torn down stays in until it is emptied. Handing out a block that is not allocated (`alloc`),
freeing one that no place holds (`free`) and moving blocks between places (`transfer`) keep it;
a filled place joins the set with `insert`. -/
namespace Nyx.Lib
open Function

variable {ι β : Type} [Zero β]

structure Exclusive (held : ι → β) (live : β → Bool) (places : Set ι) : Prop where
  single : ∀ x ∈ places, ∀ y ∈ places, held x ≠ 0 → held x = held y → x = y
  live : ∀ x ∈ places, held x ≠ 0 → live (held x) = true

/-- No place of the set holds the block. -/
def Unheld (held : ι → β) (places : Set ι) (b : β) : Prop := ∀ x ∈ places, held x ≠ b

namespace Exclusive
variable {held held' : ι → β} {live : β → Bool} {places places' : Set ι} {b : β}

section
variable (h : Exclusive held live places)
include h

theorem unheld (hb : b ≠ 0) (hdead : live b = false) : Unheld held places b := by
  intro x hx he
  have hlive := h.live x hx (he ▸ hb)
  rw [he, hdead] at hlive
  exact Bool.noConfusion hlive

/-- Blocks move along `origin`: whatever a place holds afterwards, one place held before,
and no two places get their block from the same one. -/
theorem transfer (origin : ι → ι)
    (horigin : ∀ x ∈ places', held' x ≠ 0 → origin x ∈ places ∧ held' x = held (origin x))
    (hinj : ∀ x ∈ places', ∀ y ∈ places', held' x ≠ 0 → held' y ≠ 0 → origin x = origin y → x = y) :
    Exclusive held' live places' := by
  refine ⟨?_, ?_⟩
  · intro x hx y hy hne heq
    obtain ⟨hox, hx'⟩ := horigin x hx hne
    obtain ⟨hoy, hy'⟩ := horigin y hy (heq ▸ hne)
    refine hinj x hx y hy hne (heq ▸ hne) (h.single _ hox _ hoy ?_ ?_)
    · rwa [← hx']
    · rw [← hx', ← hy', heq]
  · intro x hx hne
    obtain ⟨hox, hx'⟩ := horigin x hx hne
    rw [hx'] at hne ⊢
    exact h.live _ hox hne

/-- Places may be forgotten or emptied. -/
theorem shrink (hsub : ∀ x ∈ places', held' x ≠ 0 → x ∈ places ∧ held' x = held x) :
    Exclusive held' live places' := h.transfer id hsub fun _ _ _ _ _ _ he => he

theorem mono (hsub : places' ⊆ places) : Exclusive held live places' :=
  h.shrink fun _ hx _ => ⟨hsub hx, rfl⟩

/-- A place joins with nothing, or with an allocated block that no other place holds. -/
theorem insert {x : ι} (hx : held x ≠ 0 → live (held x) = true ∧ Unheld held places (held x)) :
    Exclusive held live (Insert.insert x places) := by
  refine ⟨?_, ?_⟩
  · intro y hy z hz hne heq
    rcases hy with rfl | hy
    · rcases hz with rfl | hz
      · rfl
      · exact absurd heq.symm ((hx hne).2 z hz)
    · rcases hz with rfl | hz
      · exact absurd heq ((hx (heq ▸ hne)).2 y hy)
      · exact h.single y hy z hz hne heq
  · intro y hy hne
    rcases hy with rfl | hy
    · exact (hx hne).1
    · exact h.live y hy hne

end

theorem alloc [DecidableEq β] (h : Exclusive held live places) :
    Exclusive held (update live b true) places := by
  refine ⟨h.single, ?_⟩
  intro x hx hne
  rcases eq_or_ne (held x) b with he | he
  · rw [he, update_self]
  rw [update_of_ne he]
  exact h.live x hx hne

theorem free [DecidableEq β] (h : Exclusive held live places) (hb : Unheld held places b) :
    Exclusive held (update live b false) places := by
  refine ⟨h.single, ?_⟩
  intro x hx hne
  rw [update_of_ne (hb x hx)]
  exact h.live x hx hne

/-- Emptying a place leaves its block held by no other one. -/
theorem unheld_of_mem (h : Exclusive held live places) {x : ι} (hx : x ∈ places)
    (hne : held x ≠ 0) : Unheld held (places \ {x}) (held x) := by
  intro y hy he
  exact hy.2 (h.single x hx y hy.1 hne he.symm).symm

end Exclusive

end Nyx.Lib
