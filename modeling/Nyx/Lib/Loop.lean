import Mathlib

/-! Loops with an early exit.

`forEach` runs a body over a list; a body that returns `false` leaves the loop, and the
loop returns `false` with the state it left. What each turn keeps the loop keeps
(`forEach_keeps`), and a loop whose every turn covers some ground of its own covers all of it,
or ends as a turn can end that fails (`forEach_covers`). -/
namespace Nyx.Lib
open List

variable {α σ : Type}

def forEach (body : σ → α → σ × Bool) : List α → σ → σ × Bool
  | [], s => (s, true)
  | x :: rest, s =>
    match body s x with
    | (s', true) => forEach body rest s'
    | (s', false) => (s', false)

variable {body : σ → α → σ × Bool} {f : σ → α → σ} (xs : List α) {x : α} {P : σ → Prop}
  {rest : List α}

theorem forEach_cons_true {s : σ} (h : (body s x).2 = true) :
    forEach body (x :: rest) s = forEach body rest (body s x).1 := by
  rw [forEach]
  cases hb : body s x with
  | mk s' ok =>
    rw [hb] at h
    cases h
    rfl

theorem forEach_cons_false {s : σ} (h : (body s x).2 = false) :
    forEach body (x :: rest) s = ((body s x).1, false) := by
  rw [forEach]
  cases hb : body s x with
  | mk s' ok =>
    rw [hb] at h
    cases h
    rfl

theorem forEach_keeps (h : ∀ x ∈ xs, ∀ s, P s → P (body s x).1) {s : σ} (hs : P s) :
    P (forEach body xs s).1 := by
  induction xs generalizing s with
  | nil => exact hs
  | cons x rest ih =>
    have hx := h x (mem_cons_self ..) s hs
    cases hb : (body s x).2 with
    | false =>
      rw [forEach_cons_false hb]
      exact hx
    | true =>
      rw [forEach_cons_true hb]
      exact ih (fun y hy => h y (mem_cons_of_mem _ hy)) hx

/-- A loop that succeeds has done its work for every element; the log has the newest first. -/
theorem forEach_logs {β : Type} {R : List β → σ → Prop} {S : α → List β}
    (h : ∀ x ∈ xs, ∀ log s, R log s → (body s x).2 = true → R (S x ++ log) (body s x).1)
    {log : List β} {s : σ} (hs : R log s) (hok : (forEach body xs s).2 = true) :
    R (xs.reverse.flatMap S ++ log) (forEach body xs s).1 := by
  induction xs generalizing log s with
  | nil => exact hs
  | cons x rest ih =>
    cases hb : (body s x).2 with
    | false =>
      rw [forEach_cons_false hb] at hok
      cases hok
    | true =>
      rw [forEach_cons_true hb] at hok ⊢
      have hrest := ih (fun y hy => h y (.tail _ hy)) (h x (.head _) log s hs hb) hok
      simpa [flatMap_append] using hrest

/-- Each turn that succeeds covers its own ground. -/
theorem forEach_covers {β : Type} {R : Set β → σ → Prop} {F : σ → Prop} {S : α → Set β}
    (xs : List α) (hdisj : xs.Pairwise fun x y => Disjoint (S x) (S y))
    (h : ∀ x ∈ xs, ∀ D s, Disjoint D (S x) → R D s →
      (body s x).2 = true ∧ R (D ∪ S x) (body s x).1 ∨ (body s x).2 = false ∧ F (body s x).1)
    {D : Set β} {s : σ} (hD : ∀ x ∈ xs, Disjoint D (S x)) (hs : R D s) :
    (forEach body xs s).2 = true ∧ R (D ∪ {b | ∃ x ∈ xs, b ∈ S x}) (forEach body xs s).1 ∨
      (forEach body xs s).2 = false ∧ F (forEach body xs s).1 := by
  induction xs generalizing D s with
  | nil =>
    have hnone : D ∪ {b | ∃ x ∈ ([] : List α), b ∈ S x} = D := by simp
    rw [hnone]
    exact .inl ⟨rfl, hs⟩
  | cons x rest ih =>
    obtain ⟨hx, hrest⟩ := pairwise_cons.mp hdisj
    rcases h x (mem_cons_self ..) D s (hD x (mem_cons_self ..)) hs with
      ⟨hb, hr⟩ | ⟨hb, hf⟩
    · have hground : D ∪ {b | ∃ y ∈ x :: rest, b ∈ S y} = D ∪ S x ∪ {b | ∃ y ∈ rest, b ∈ S y} := by
        ext b
        simp [or_assoc]
      rw [forEach_cons_true hb, hground]
      refine ih hrest (fun y hy => h y (mem_cons_of_mem _ hy)) (fun y hy => ?_) hr
      exact Set.disjoint_union_left.mpr ⟨hD y (mem_cons_of_mem _ hy), hx y hy⟩
    · rw [forEach_cons_false hb]
      exact .inr ⟨rfl, hf⟩

/-- What every turn of a plain loop leaves alone, the loop leaves alone. -/
theorem foldl_view {γ : Type} (g : σ → γ) (hf : ∀ s x, g (f s x) = g s) (s : σ) (xs : List α) :
    g (xs.foldl f s) = g s := by
  induction xs generalizing s with
  | nil => rfl
  | cons x rest ih => rw [foldl_cons, ih, hf]

theorem foldl_keeps (hf : ∀ s x, P s → P (f s x)) {s : σ} (xs : List α) (hs : P s) :
    P (xs.foldl f s) := by
  induction xs generalizing s with
  | nil => exact hs
  | cons x rest ih => exact ih (hf s x hs)

/-- A loop that does in `view` what another loop does, turn by turn, as long as `R` holds of the
entries to come. -/
theorem foldl_refines {τ : Type} {g : τ → α → τ} (view : σ → τ) {R : σ → α → Prop}
    (hturn : ∀ s x, R s x → view (f s x) = g (view s) x)
    (hkeep : ∀ s x y, y ≠ x → R s y → R (f s x) y) {s : σ} {xs : List α} (hnodup : xs.Nodup)
    (hR : ∀ x ∈ xs, R s x) : view (xs.foldl f s) = xs.foldl g (view s) := by
  induction xs generalizing s with
  | nil => rfl
  | cons x rest ih =>
    obtain ⟨hx, hrest⟩ := nodup_cons.mp hnodup
    rw [foldl_cons, foldl_cons, ← hturn s x (hR x (.head rest))]
    refine ih hrest fun y hy => hkeep s x y (fun he => hx (he ▸ hy)) (hR y (.tail x hy))

/-- A plain loop that keeps `P` until its turn for `x`, which brings about `Q`. -/
theorem foldl_reaches {P Q : σ → Prop} (hP : ∀ s y, P s → P (f s y)) (hQ : ∀ s y, Q s → Q (f s y))
    (hx : ∀ s, P s → Q (f s x)) {s : σ} {xs : List α} (hmem : x ∈ xs) (hs : P s) :
    Q (xs.foldl f s) := by
  induction xs generalizing s with
  | nil => exact absurd hmem not_mem_nil
  | cons y rest ih =>
    rcases mem_cons.mp hmem with rfl | hrest
    · exact foldl_keeps hQ rest (hx s hs)
    · exact ih hrest (hP s y hs)

end Nyx.Lib
