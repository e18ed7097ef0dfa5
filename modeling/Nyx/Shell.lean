import Mathlib.Data.List.Forall2

/-! The shell (`sh.c`). -/
namespace Nyx.Shell
open List

/-! ### Wildcards -/

/-- The loop over the tails of `s`, with the empty one last. -/
def anyTail (f : List Char → Bool) : List Char → Bool
  | [] => f []
  | c :: s => f (c :: s) || anyTail f s

def globMatch : List Char → List Char → Bool
  | [], s => s.isEmpty
  | p :: pat, s =>
    if p = '*' then pat.isEmpty || anyTail (globMatch pat) s
    else match s with
      | [] => false
      | c :: s => if p = '?' ∨ p = c then globMatch pat s else false

/-- What a character of a pattern can be replaced by. -/
def Stands (p : Char) (w : List Char) : Prop :=
  if p = '*' then True else if p = '?' then w.length = 1 else w = [p]

def Replaced (pat s : List Char) : Prop := ∃ ws, Forall₂ Stands pat ws ∧ ws.flatten = s

theorem anyTail_iff {f : List Char → Bool} {s : List Char} :
    anyTail f s = true ↔ ∃ w t, w ++ t = s ∧ f t = true := by
  induction s with
  | nil => simp [anyTail]
  | cons c s ih =>
    rw [anyTail, Bool.or_eq_true, ih]
    constructor
    · rintro (h | ⟨w, t, rfl, h⟩)
      · exact ⟨[], _, rfl, h⟩
      · exact ⟨c :: w, t, rfl, h⟩
    · rintro ⟨_ | ⟨_, w⟩, t, hs, h⟩
      · exact .inl (hs ▸ h)
      · exact .inr ⟨w, t, (cons.inj hs).2, h⟩

theorem replaced_cons {p : Char} {pat s : List Char} :
    Replaced (p :: pat) s ↔ ∃ w t, Stands p w ∧ w ++ t = s ∧ Replaced pat t := by
  constructor
  · rintro ⟨_, hws, rfl⟩
    obtain ⟨w, ws, hw, hrest, rfl⟩ := forall₂_cons_left_iff.mp hws
    exact ⟨w, ws.flatten, hw, rfl, ws, hrest, rfl⟩
  · rintro ⟨w, _, hw, rfl, ws, hrest, rfl⟩
    exact ⟨w :: ws, .cons hw hrest, rfl⟩

/-- `glob_match` returns 1 exactly for the strings that the pattern's characters can be
replaced to. -/
theorem globMatch_iff (pat s : List Char) : globMatch pat s = true ↔ Replaced pat s := by
  induction pat generalizing s with
  | nil =>
    rw [globMatch, List.isEmpty_iff]
    refine ⟨fun hs => ⟨[], .nil, hs.symm⟩, ?_⟩
    rintro ⟨_, ⟨⟩, rfl⟩
    rfl
  | cons p pat ih =>
    rw [replaced_cons]
    unfold globMatch
    split
    case isTrue hstar =>
      rw [Bool.or_eq_true, anyTail_iff]
      simp only [Stands, hstar, if_true, true_and, ih]
      refine or_iff_right_of_imp fun hnil => ?_
      rw [List.isEmpty_iff.mp hnil]
      exact ⟨s, [], append_nil s, [], .nil, rfl⟩
    case isFalse hstar =>
      cases s with
      | nil =>
        refine iff_of_false Bool.false_ne_true ?_
        rintro ⟨w, t, hw, hs, -⟩
        rw [Stands, if_neg hstar, (append_eq_nil_iff.mp hs).1] at hw
        split at hw <;> cases hw
      | cons c s =>
        have hone (w : List Char) : Stands p w ↔ ∃ d, w = [d] ∧ (p = '?' ∨ p = d) := by
          rw [Stands, if_neg hstar]
          split
          case isTrue hany => simp [hany, length_eq_one_iff]
          case isFalse hany => simp [hany]
        dsimp only
        split
        case isTrue h =>
          rw [ih]
          refine ⟨fun hs => ⟨[c], s, (hone _).mpr ⟨c, rfl, h⟩, rfl, hs⟩, ?_⟩
          rintro ⟨w, t, hw, hs, ht⟩
          obtain ⟨d, rfl, -⟩ := (hone w).mp hw
          exact (cons.inj hs).2 ▸ ht
        case isFalse h =>
          refine iff_of_false Bool.false_ne_true ?_
          rintro ⟨w, t, hw, hs, -⟩
          obtain ⟨d, rfl, hd⟩ := (hone w).mp hw
          exact h ((cons.inj hs).1 ▸ hd)

end Nyx.Shell
