import Mathlib

/-! Runs of a deterministic machine under a rule on its inputs.

A machine is a step function; a run folds it over a list of inputs. `Admissible` says that every
input obeys a rule that may look at the state it meets. Whatever a lawful step keeps, a lawful
run keeps (`run_invariant`), and a run can be cut anywhere (`run_append`). -/
namespace Nyx.Lib

variable {σ ι : Type} (step : σ → ι → σ) (rule : σ → ι → Prop)

def run (s : σ) : List ι → σ
  | [] => s
  | i :: rest => run (step s i) rest

def Admissible (s : σ) : List ι → Prop
  | [] => True
  | i :: rest => rule s i ∧ Admissible (step s i) rest

instance Admissible.decidable [∀ s i, Decidable (rule s i)] :
    (s : σ) → (inputs : List ι) → Decidable (Admissible step rule s inputs)
  | _, [] => isTrue trivial
  | s, i :: rest =>
    have := Admissible.decidable (step s i) rest
    inferInstanceAs (Decidable (rule s i ∧ Admissible step rule (step s i) rest))

theorem run_append (s : σ) (a b : List ι) : run step s (a ++ b) = run step (run step s a) b := by
  induction a generalizing s with
  | nil => rfl
  | cons i rest ih => exact ih _

theorem admissible_append (s : σ) (a b : List ι) : Admissible step rule s (a ++ b) ↔
      Admissible step rule s a ∧ Admissible step rule (run step s a) b := by
  induction a generalizing s with
  | nil => simp [Admissible, run]
  | cons i rest ih => simp only [List.cons_append, Admissible, run, ih, and_assoc]

variable {step rule} {P : σ → Prop}

/-- Whatever every lawful step keeps, every lawful run keeps. -/
theorem run_invariant (hstep : ∀ s i, P s → rule s i → P (step s i)) (s : σ) (inputs : List ι)
    (hs : P s) (hr : Admissible step rule s inputs) : P (run step s inputs) := by
  induction inputs generalizing s with
  | nil => exact hs
  | cons i rest ih => exact ih _ (hstep s i hs hr.1) hr.2

/-- Whatever every step keeps, every run keeps. -/
theorem run_keeps (hstep : ∀ s i, P s → P (step s i)) (s : σ) (inputs : List ι) (hs : P s) :
    P (run step s inputs) := by
  induction inputs generalizing s with
  | nil => exact hs
  | cons i rest ih => exact ih _ (hstep s i hs)

/-- A rule on the inputs alone. -/
theorem run_keeps_of {rule : ι → Prop} (hstep : ∀ s i, rule i → P s → P (step s i)) (s : σ)
    (inputs : List ι) (hr : ∀ i ∈ inputs, rule i) (hs : P s) : P (run step s inputs) := by
  induction inputs generalizing s with
  | nil => exact hs
  | cons i rest ih =>
    exact ih _ (fun j hj => hr j (.tail i hj)) (hstep s i (hr i (.head rest)) hs)

/-- A weaker rule admits every run a stronger one does. -/
theorem Admissible.mono {rule' : σ → ι → Prop} (hle : ∀ s i, rule s i → rule' s i) (s : σ)
    (inputs : List ι) (hr : Admissible step rule s inputs) : Admissible step rule' s inputs := by
  induction inputs generalizing s with
  | nil => trivial
  | cons i rest ih => exact ⟨hle s i hr.1, ih _ hr.2⟩

/-- Where lawful steps are exactly those that keep `P`, lawful runs are exactly those that
never leave it. `Q` is what all steps keep. -/
theorem admissible_iff {P Q : σ → Prop} (hQ : ∀ s i, Q s → Q (step s i))
    (hP : ∀ s i, Q s → P s → (P (step s i) ↔ rule s i)) (s : σ) (inputs : List ι) (hq : Q s)
    (hs : P s) :
    (∀ ran rest, inputs = ran ++ rest → P (run step s ran)) ↔ Admissible step rule s inputs := by
  induction inputs generalizing s with
  | nil =>
    refine ⟨fun _ => trivial, fun _ ran rest he => ?_⟩
    rw [(List.nil_eq_append_iff.mp he).1]
    exact hs
  | cons i inputs ih =>
    refine ⟨fun h => ?_, fun h ran rest he => ?_⟩
    · have hi : P (step s i) := h [i] inputs rfl
      refine ⟨(hP s i hq hs).mp hi, (ih _ (hQ s i hq) hi).mp fun ran rest he => ?_⟩
      exact h (i :: ran) rest (congrArg (i :: ·) he)
    · cases ran with
      | nil => exact hs
      | cons j ran =>
        obtain ⟨rfl, htail⟩ := List.cons.inj he
        have hi : P (step s i) := (hP s i hq hs).mpr h.1
        exact (ih _ (hQ s i hq) hi).mpr h.2 ran rest htail

end Nyx.Lib
