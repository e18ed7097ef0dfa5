import Mathlib

/-! Nodes linked by numbered edges, as a multi-level table is.

`child` gives the node behind an edge of a node; it may depend on the level, so that a table
can have a depth and edges that do not count. A path lists the edges from the last to the
first. Two facts carry a development over such tables: what is reached after one edge was set
(`reach_setEdge`), and how often a walk of the subtree meets a node (`encard_reach`). -/
namespace Nyx.Lib.Trie
open List

variable {ν ι : Type} {child child' : Nat → ν → ι → Option ν}

/-- The node at the end of a path that starts at a node of level `lvl`. -/
def reach (child : Nat → ν → ι → Option ν) (lvl : Nat) (root : ν) : List ι → Option ν
  | [] => some root
  | i :: up => (reach child lvl root up).bind fun n => child (lvl + up.length) n i

section Reach
variable {lvl : Nat} {root : ν}

@[simp] theorem reach_nil : reach child lvl root [] = some root := rfl

variable {i : ι} {up : List ι}

theorem reach_cons {n : ν} (h : reach child lvl root up = some n) :
    reach child lvl root (i :: up) = child (lvl + up.length) n i := by
  simp only [reach, h, Option.bind_some]

theorem reach_cons_eq_some {n : ν} : reach child lvl root (i :: up) = some n ↔
      ∃ t, reach child lvl root up = some t ∧ child (lvl + up.length) t i = some n := by
  simp only [reach, Option.bind_eq_some_iff]

/-- The first edge taken by itself. -/
theorem reach_concat (q : List ι) (i : ι) : reach child lvl root (q ++ [i]) =
      (child lvl root i).bind fun c => reach child (lvl + 1) c q := by
  induction q with
  | nil => simp [reach]
  | cons j q ih =>
    rw [cons_append, reach, ih]
    cases child lvl root i with
    | none => rfl
    | some c =>
      simp only [Option.bind_some, reach, length_append, length_singleton]
      rw [show lvl + (q.length + 1) = lvl + 1 + q.length by omega]

/-- Tables that agree on every node reached reach the same nodes. -/
theorem reach_congr (h : ∀ up n i, reach child lvl root up = some n →
      child' (lvl + up.length) n i = child (lvl + up.length) n i) (path : List ι) :
    reach child' lvl root path = reach child lvl root path := by
  induction path with
  | nil => rfl
  | cons i up ih =>
    rw [reach, reach, ih]
    cases hn : reach child lvl root up with
    | none => rfl
    | some n => exact h up n i hn

/-- Setting one edge, with nothing below it before or after, changes what that edge leads to
and nothing else. -/
theorem reach_setEdge [DecidableEq ι] {p : List ι} {t : ν} {i : ι}
    (ht : reach child lvl root p = some t)
    (hother : ∀ up n j, reach child lvl root up = some n → ¬ (up = p ∧ j = i) →
      child' (lvl + up.length) n j = child (lvl + up.length) n j)
    (hbefore : ∀ n j, child (lvl + p.length) t i = some n → child (lvl + (p.length + 1)) n j = none)
    (hafter : ∀ n j, child' (lvl + p.length) t i = some n →
      child' (lvl + (p.length + 1)) n j = none) (path : List ι) :
    reach child' lvl root path =
      if path = i :: p then child' (lvl + p.length) t i else reach child lvl root path := by
  induction path with
  | nil => rfl
  | cons j up ih =>
    by_cases hup : up = i :: p
    · -- below the edge: nothing, before and after
      subst hup
      have hne : ¬ j :: i :: p = i :: p := fun h => by simpa using congrArg length h
      rw [if_neg hne, reach, ih, if_pos rfl, reach, reach_cons ht, length_cons]
      cases hb : child (lvl + p.length) t i with
      | none =>
        cases ha : child' (lvl + p.length) t i with
        | none => rfl
        | some n => exact hafter n j ha
      | some n =>
        rw [Option.bind_some, hbefore n j hb]
        cases ha : child' (lvl + p.length) t i with
        | none => rfl
        | some n => exact hafter n j ha
    · rw [reach, ih, if_neg hup]
      cases hn : reach child lvl root up with
      | none =>
        have hne : ¬ j :: up = i :: p := by
          intro h
          obtain ⟨_, rfl⟩ := cons.inj h
          rw [ht] at hn
          exact absurd hn (by simp)
        rw [if_neg hne, reach, hn]
        rfl
      | some n =>
        by_cases hedge : up = p ∧ j = i
        · obtain ⟨rfl, rfl⟩ := hedge
          obtain rfl : t = n := Option.some.inj (ht.symm.trans hn)
          rw [if_pos rfl, Option.bind_some]
        · have hne : ¬ j :: up = i :: p := fun h =>
            hedge ⟨(cons.inj h).2, (cons.inj h).1⟩
          rw [if_neg hne, reach, hn, Option.bind_some, Option.bind_some, hother up n j hn hedge]

end Reach

/-! ### Walking a subtree -/

/-- The nodes of a subtree, each after the ones below it. -/
def nodes (child : Nat → ν → ι → Option ν) (edges : List ι) : (depth lvl : Nat) → ν → List ν
  | 0, _, n => [n]
  | depth + 1, lvl, n =>
    (edges.flatMap fun i =>
      match child lvl n i with
      | none => []
      | some c => nodes child edges depth (lvl + 1) c) ++ [n]

section Count
variable {edges : List ι} {lvl depth : Nat} {root f : ν}

/-- The paths to `f` whose first edge is one of `es`. -/
def pathsBy (child : Nat → ν → ι → Option ν) (lvl : Nat) (root f : ν) (es : List ι) :
    Set (List ι) := {path | ∃ q i, i ∈ es ∧ path = q ++ [i] ∧ reach child lvl root path = some f}

theorem pathsBy_cons {i : ι} {es : List ι} : pathsBy child lvl root f (i :: es) =
      (fun q => q ++ [i]) '' {q | (child lvl root i).bind (reach child (lvl + 1) · q) = some f} ∪
        pathsBy child lvl root f es := by
  ext path
  simp only [pathsBy, Set.mem_ofPred_eq, Set.mem_union, Set.mem_image, mem_cons]
  constructor
  · rintro ⟨q, j, rfl | hj, rfl, h⟩
    · exact .inl ⟨q, by rwa [reach_concat] at h, rfl⟩
    · exact .inr ⟨q, j, hj, rfl, h⟩
  · rintro (⟨q, h, rfl⟩ | ⟨q, j, hj, rfl, h⟩)
    · exact ⟨q, i, .inl rfl, rfl, by rwa [reach_concat]⟩
    · exact ⟨q, j, .inr hj, rfl, h⟩

theorem concat_injective (i : ι) : Function.Injective fun q : List ι => q ++ [i] :=
  fun _ _ h => append_cancel_right h

variable [DecidableEq ν]

theorem encard_pathsBy (es : List ι) (hes : es.Nodup)
    (ih : ∀ c, {q | reach child (lvl + 1) c q = some f}.encard =
      (nodes child edges depth (lvl + 1) c).count f) :
    (pathsBy child lvl root f es).encard = ((es.flatMap fun i =>
        match child lvl root i with
        | none => []
        | some c => nodes child edges depth (lvl + 1) c).count f : Nat) := by
  induction es with
  | nil => simp [pathsBy]
  | cons i es ihes =>
    obtain ⟨hi, hes⟩ := nodup_cons.mp hes
    have hdisj : Disjoint
        ((fun q => q ++ [i]) '' {q | (child lvl root i).bind (reach child (lvl + 1) · q) = some f})
        (pathsBy child lvl root f es) := by
      rw [Set.disjoint_left]
      rintro _ ⟨q, _, rfl⟩ ⟨q', j, hj, h, _⟩
      obtain ⟨_, h⟩ := append_inj' h rfl
      exact hi (cons.inj h |>.1 ▸ hj)
    rw [pathsBy_cons, Set.encard_union_eq hdisj, (concat_injective i).encard_image, ihes hes,
      flatMap_cons, count_append, Nat.cast_add]
    congr 1
    cases child lvl root i with
    | none => simp
    | some c => exact ih c

/-- A subtree lists a node once for each path to it. -/
theorem encard_reach (hnodup : edges.Nodup)
    (hedges : ∀ lvl n i c, child lvl n i = some c → i ∈ edges)
    (hdepth : ∀ l n i, lvl + depth ≤ l → child l n i = none) :
    {path | reach child lvl root path = some f}.encard =
      (nodes child edges depth lvl root).count f := by
  induction depth generalizing lvl root with
  | zero =>
    have hcons : ∀ i up, reach child lvl root (i :: up) = none := by
      intro i up
      rw [reach]
      cases reach child lvl root up with
      | none => rfl
      | some n => exact hdepth _ n i (by omega)
    by_cases hf : root = f
    · have hset : {path | reach child lvl root path = some f} = {[]} := by
        ext path
        cases path with
        | nil => simp [hf]
        | cons i up => simp [hcons]
      rw [hset]
      simp [nodes, hf]
    · have hset : {path | reach child lvl root path = some f} = ∅ := by
        ext path
        cases path with
        | nil => simp [hf]
        | cons i up => simp [hcons]
      rw [hset]
      simp [nodes, hf]
  | succ depth ih =>
    have hset : {path | reach child lvl root path = some f} =
        {path | path = [] ∧ root = f} ∪ pathsBy child lvl root f edges := by
      ext path
      simp only [pathsBy, Set.mem_ofPred_eq, Set.mem_union]
      constructor
      · intro h
        rcases eq_nil_or_concat path with rfl | ⟨q, i, rfl⟩
        · exact .inl ⟨rfl, by simpa using h⟩
        rw [concat_eq_append] at h ⊢
        have hi := h
        rw [reach_concat, Option.bind_eq_some_iff] at hi
        obtain ⟨c, hc, _⟩ := hi
        exact .inr ⟨q, i, hedges _ _ _ _ hc, rfl, h⟩
      · rintro (⟨rfl, rfl⟩ | ⟨q, i, _, rfl, h⟩)
        · rfl
        · exact h
    have hdisj : Disjoint {path : List ι | path = [] ∧ root = f}
        (pathsBy child lvl root f edges) := by
      rw [Set.disjoint_left]
      rintro _ ⟨rfl, _⟩ ⟨q, i, _, h, _⟩
      exact absurd h (by simp)
    rw [hset, Set.encard_union_eq hdisj, nodes, count_append, Nat.cast_add,
      encard_pathsBy edges hnodup (fun c => ih fun l n i hl => hdepth l n i (by omega)), add_comm]
    congr 1
    by_cases hf : root = f
    · simp [hf]
    · simp [hf]

end Count

end Nyx.Lib.Trie
