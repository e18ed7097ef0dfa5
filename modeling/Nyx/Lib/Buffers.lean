import Mathlib

/-! Programs that stage their data in buffers.

A program asks for a buffer by its role, and works on what it holds while it calls others that
ask for buffers too. How buffers are handed out is a discipline (`Buffers`): one buffer for each
role, handed out again and again (`Buffers.shared`), or a new one every time (`Buffers.fresh`).
All it owes is that buffers of different roles do not share their contents.

`Yields` says what a program does from a state: it does not fail, it ends with a given result and
state, and the buffers outside of some roles hold what they held. A buffer is known to hold
something (`held`) as long as nobody touches its role; so what a program yields by these rules
under one discipline it yields under every other. -/
namespace Nyx.Lib

structure Buffers (ρ γ : Type) where
  Mem : Type
  Handle : Type
  role : Handle → ρ
  get : ρ → Mem → Handle × Mem
  load : Mem → Handle → γ
  store : Mem → Handle → γ → Mem
  role_get : ∀ r m, role (get r m).1 = r
  load_get : ∀ r m h, role h ≠ r → load (get r m).2 h = load m h
  load_store : ∀ m h c, load (store m h c) h = c
  load_store_ne : ∀ m h c h', role h' ≠ role h → load (store m h c) h' = load m h'

namespace Buffers
variable {ρ γ : Type}

/-- One buffer for each role. -/
def shared (ρ γ : Type) [DecidableEq ρ] : Buffers ρ γ where
  Mem := ρ → γ
  Handle := ρ
  role h := h
  get r m := (r, m)
  load m h := m h
  store m h c := Function.update m h c
  role_get _ _ := rfl
  load_get _ _ _ _ := rfl
  load_store _ _ _ := Function.update_self ..
  load_store_ne _ _ _ _ h := Function.update_of_ne h ..

/-- A new buffer for each call, with whatever it holds. -/
def fresh (ρ γ : Type) [DecidableEq ρ] : Buffers ρ γ where
  Mem := Nat × (ρ × Nat → γ)
  Handle := ρ × Nat
  role h := h.1
  get r m := ((r, m.1), (m.1 + 1, m.2))
  load m h := m.2 h
  store m h c := (m.1, Function.update m.2 h c)
  role_get _ _ := rfl
  load_get _ _ _ _ := rfl
  load_store _ _ _ := Function.update_self ..
  load_store_ne _ _ _ _ hne := Function.update_of_ne (fun he => hne (congrArg Prod.fst he)) ..

/-! ### Programs -/

variable (B : Buffers ρ γ) (σ φ : Type)

/-- Programs on a state `σ` that fail with a `φ`. -/
abbrev Prog (α : Type) := StateT (σ × B.Mem) (Except φ) α

variable {B σ φ} {α β : Type}

namespace Prog

def buffer (r : ρ) : B.Prog σ φ B.Handle := fun (s, m) => .ok ((B.get r m).1, s, (B.get r m).2)

def load (h : B.Handle) : B.Prog σ φ γ := fun (s, m) => .ok (B.load m h, s, m)

def store (h : B.Handle) (c : γ) : B.Prog σ φ Unit := fun (s, m) => .ok ((), s, B.store m h c)

/-- What is done to the state alone. -/
def act (f : σ → α × σ) : B.Prog σ φ α := fun (s, m) => .ok ((f s).1, (f s).2, m)

/-- Fetches something from the state into a buffer. -/
def fetch (f : σ → γ) (h : B.Handle) : B.Prog σ φ Unit :=
  fun (s, m) => .ok ((), s, B.store m h (f s))

/-- Puts what a buffer holds into the state. -/
def flush (f : γ → σ → σ) (h : B.Handle) : B.Prog σ φ Unit :=
  fun (s, m) => .ok ((), f (B.load m h) s, m)

/-- A calculation that may fail. -/
def attempt (e : Except φ α) : B.Prog σ φ α := fun sm => e.map fun a => (a, sm)

/-- A loop over a list. -/
def each (body : α → B.Prog σ φ Unit) : List α → B.Prog σ φ Unit
  | [] => pure ()
  | x :: rest => do
    body x
    each body rest

end Prog

/-! ### What programs compute -/

/-- From the state `s`, as long as the buffers hold what `held` says, the program ends with the
result and the state `r` and touches only buffers of the roles in `touched`. -/
def Yields (held : List (B.Handle × γ)) (touched : Set ρ) (s : σ) (p : B.Prog σ φ α)
    (r : α × σ) : Prop := ∀ m, (∀ x ∈ held, B.load m x.1 = x.2) →
    ∃ m', p (s, m) = .ok (r.1, r.2, m') ∧ ∀ h, B.role h ∉ touched → B.load m' h = B.load m h

/-- What is asked of every held buffer, while none is held. -/
theorem unheld {P : B.Handle × γ → Prop} : ∀ x ∈ [], P x := List.forall_mem_nil P

namespace Yields
variable {held held' : List (B.Handle × γ)} {touched touched' : Set ρ} {s : σ} {p : B.Prog σ φ α}
  {r : α × σ} {r' : β × σ}

theorem pure (a : α) : Yields held touched s (pure a : B.Prog σ φ α) (a, s) :=
  fun m _ => ⟨m, rfl, fun _ _ => rfl⟩

theorem weaken (h : Yields held touched s p r) (hsub : touched ⊆ touched')
    (hheld : held ⊆ held') : Yields held' touched' s p r := by
  intro m hm
  obtain ⟨m', he, hkeep⟩ := h m fun x hx => hm x (hheld hx)
  exact ⟨m', he, fun b hb => hkeep b fun ht => hb (hsub ht)⟩

/-- A program that relies on no buffer can be run whatever the buffers hold. -/
theorem univ (h : Yields [] touched s p r) : Yields held Set.univ s p r :=
  h.weaken (Set.subset_univ _) (List.nil_subset _)

variable {k : α → B.Prog σ φ β}

/-- One program after the other: the second may rely on what is held in roles that the first
does not touch. -/
theorem bind (h : Yields held touched s p r) (hfree : ∀ x ∈ held, B.role x.1 ∉ touched)
    (hsub : touched ⊆ touched') (hk : Yields held touched' r.2 (k r.1) r') :
    Yields held touched' s (p >>= k) r' := by
  intro m hm
  obtain ⟨m₁, he, hkeep⟩ := h m hm
  obtain ⟨m₂, he', hkeep'⟩ := hk m₁ fun x hx => by rw [hkeep x.1 (hfree x hx), hm x hx]
  refine ⟨m₂, ?_, fun b hb => ?_⟩
  · simp only [Bind.bind, StateT.bind, he]
    exact he'
  · rw [hkeep' b hb, hkeep b fun ht => hb (hsub ht)]

/-- A program that relies on no buffer is called. -/
theorem call (h : Yields [] touched s p r) (hfree : ∀ x ∈ held, B.role x.1 ∉ touched)
    (hsub : touched ⊆ touched') (hk : Yields held touched' r.2 (k r.1) r') :
    Yields held touched' s (p >>= k) r' :=
  (h.weaken subset_rfl (List.nil_subset _)).bind hfree hsub hk

/-- A call while nothing is held. -/
theorem seq (h : Yields [] touched s p r) (hk : Yields [] Set.univ r.2 (k r.1) r') :
    Yields [] Set.univ s (p >>= k) r' := h.call unheld (Set.subset_univ _) hk

/-- A buffer is asked for. What was held in its role is forgotten. -/
theorem buffer {r : ρ} {k : B.Handle → B.Prog σ φ β} (hr : r ∈ touched)
    (hfree : ∀ x ∈ held, B.role x.1 ≠ r)
    (hk : ∀ h, B.role h = r → Yields held touched s (k h) r') :
    Yields held touched s (Prog.buffer r >>= k) r' := by
  intro m hm
  obtain ⟨m', he, hkeep⟩ := hk (B.get r m).1 (B.role_get r m) (B.get r m).2 fun x hx => by
    rw [B.load_get r m x.1 (hfree x hx), hm x hx]
  refine ⟨m', he, fun b hb => ?_⟩
  rw [hkeep b hb, B.load_get r m b fun hbr => hb (hbr ▸ hr)]

variable {c : γ}

/-- Something is stored in a buffer, which holds it from now on. -/
theorem store {h : B.Handle} {k : Unit → B.Prog σ φ β} (hr : B.role h ∈ touched)
    (hfree : ∀ x ∈ held, B.role x.1 ≠ B.role h) (hk : Yields ((h, c) :: held) touched s (k ()) r') :
    Yields held touched s (Prog.store h c >>= k) r' := by
  intro m hm
  obtain ⟨m', he, hkeep⟩ := hk (B.store m h c) fun x hx => by
    rcases List.mem_cons.mp hx with rfl | hx
    · exact B.load_store m h c
    · rw [B.load_store_ne m h c x.1 (hfree x hx), hm x hx]
  refine ⟨m', he, fun b hb => ?_⟩
  rw [hkeep b hb, B.load_store_ne m h c b fun hbr => hb (hbr ▸ hr)]

/-- A buffer that is known to hold something is stored into again. -/
theorem restore {h : B.Handle} {c c' : γ} {k : Unit → B.Prog σ φ β}
    (hr : B.role h ∈ touched) (hfree : ∀ x ∈ held, B.role x.1 ≠ B.role h)
    (hk : Yields ((h, c) :: held) touched s (k ()) r') :
    Yields ((h, c') :: held) touched s (Prog.store h c >>= k) r' :=
  (store hr hfree hk).weaken subset_rfl (List.subset_cons_self ..)

theorem fetch {h : B.Handle} {get : σ → γ} {k : Unit → B.Prog σ φ β}
    (hr : B.role h ∈ touched) (hfree : ∀ x ∈ held, B.role x.1 ≠ B.role h)
    (hk : Yields ((h, get s) :: held) touched s (k ()) r') :
    Yields held touched s (Prog.fetch get h >>= k) r' := store hr hfree hk

theorem load {h : B.Handle} {c : γ} {k : γ → B.Prog σ φ β}
    (hk : Yields ((h, c) :: held) touched s (k c) r') :
    Yields ((h, c) :: held) touched s (Prog.load h >>= k) r' := by
  intro m hm
  obtain ⟨m', he, hkeep⟩ := hk m hm
  refine ⟨m', ?_, hkeep⟩
  have hload : B.load m h = c := hm _ (List.mem_cons_self ..)
  simp only [Bind.bind, StateT.bind, Prog.load, hload]
  exact he

theorem flush {h : B.Handle} {put : γ → σ → σ} {k : Unit → B.Prog σ φ β}
    (hk : Yields ((h, c) :: held) touched (put c s) (k ()) r') :
    Yields ((h, c) :: held) touched s (Prog.flush put h >>= k) r' := by
  intro m hm
  have hload : B.load m h = c := hm _ (List.mem_cons_self ..)
  obtain ⟨m', he, hkeep⟩ := hk m hm
  refine ⟨m', ?_, hkeep⟩
  simp only [Bind.bind, StateT.bind, Prog.flush, hload]
  exact he

theorem act {f : σ → α × σ} (hk : Yields held touched (f s).2 (k (f s).1) r') :
    Yields held touched s (Prog.act f >>= k) r' := hk

theorem attempt {e : Except φ α} {a : α} (he : e = .ok a) (hk : Yields held touched s (k a) r') :
    Yields held touched s (Prog.attempt e >>= k) r' := by
  subst he
  exact hk

section
variable {c : Prop} [Decidable c] {q : B.Prog σ φ α}

theorem ite_fst {a b : α} {t : σ} (hpos : c → Yields held touched s p (a, t))
    (hneg : ¬ c → Yields held touched s q (b, t)) :
    Yields held touched s (if c then p else q) (if c then a else b, t) := by
  split
  case isTrue h => exact hpos h
  case isFalse h => exact hneg h

theorem ite_snd {a : α} {t t' : σ} (hpos : c → Yields held touched s p (a, t))
    (hneg : ¬ c → Yields held touched s q (a, t')) :
    Yields held touched s (if c then p else q) (a, if c then t else t') := by
  split
  case isTrue h => exact hpos h
  case isFalse h => exact hneg h

theorem ite_swap {x y : σ × α} (hpos : c → Yields held touched s p (x.2, x.1))
    (hneg : ¬ c → Yields held touched s q (y.2, y.1)) :
    Yields held touched s (if c then p else q) ((if c then x else y).2, (if c then x else y).1) := by
  split
  case isTrue h => exact hpos h
  case isFalse h => exact hneg h

end

/-- The rules above are about programs that go on; every program does. -/
theorem last (h : Yields held touched s (p >>= Pure.pure) r) : Yields held touched s p r := by
  rwa [bind_pure] at h

theorem each {body : α → B.Prog σ φ Unit} {f : σ → α → σ} (xs : List α)
    (hfree : ∀ x ∈ held, B.role x.1 ∉ touched)
    (h : ∀ x ∈ xs, ∀ s, Yields held touched s (body x) ((), f s x)) :
    Yields held touched s (Prog.each body xs) ((), xs.foldl f s) := by
  induction xs generalizing s with
  | nil => exact pure ()
  | cons x rest ih =>
    exact (h x (List.mem_cons_self ..) s).bind hfree subset_rfl
      (ih fun y hy => h y (List.mem_cons_of_mem _ hy))

end Yields

/-- A program computes the same under all disciplines. -/
theorem Yields.agree {B B' : Buffers ρ γ} {touched touched' : Set ρ} {s : σ} {p : B.Prog σ φ α}
    {p' : B'.Prog σ φ α} {r : α × σ} (h : Yields [] touched s p r)
    (h' : Yields [] touched' s p' r) (m : B.Mem) (m' : B'.Mem) :
    ∃ a t n n', p (s, m) = .ok (a, t, n) ∧ p' (s, m') = .ok (a, t, n') := by
  obtain ⟨n, he, _⟩ := h m unheld
  obtain ⟨n', he', _⟩ := h' m' unheld
  exact ⟨_, _, n, n', he, he'⟩

end Buffers
end Nyx.Lib
