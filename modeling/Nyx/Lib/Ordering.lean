import Mathlib

/-! Two sorts by a key, as loops over an array do them: an insertion sort upwards and an exchange
sort downwards. Equal keys keep their order in the first and not in the second; where no two keys
are equal, the two give opposite orders (`exchangeDown_eq`). -/
namespace Nyx.Lib
open List

variable {α κ : Type} [LinearOrder κ] (key : α → κ)

/-- One round of an insertion sort: `x` passes the greater keys, from the end on. The sorted part
is listed from its last element to its first. -/
def sink (x : α) : List α → List α
  | [] => [x]
  | y :: rest => if key x < key y then y :: sink x rest else x :: y :: rest

def insertAll (l : List α) : List α := l.foldl (fun sorted x => sink key x sorted) []

/-- The insertion sort: the smallest key is first. -/
def insertUp (l : List α) : List α := (insertAll key l).reverse

/-- One round of an exchange sort: `x` gives its place to each greater key on the way. -/
def exchange (x : α) : List α → α × List α
  | [] => (x, [])
  | y :: rest =>
    if key x < key y then
      let (top, below) := exchange y rest
      (top, x :: below)
    else
      let (top, below) := exchange x rest
      (top, y :: below)

def exchangeRounds : Nat → List α → List α
  | 0, l => l
  | _ + 1, [] => []
  | n + 1, x :: rest =>
    let (top, below) := exchange key x rest
    top :: exchangeRounds n below

/-- The exchange sort: the greatest key is first. -/
def exchangeDown (l : List α) : List α := exchangeRounds key l.length l

/-- The order of a list whose keys descend. -/
def Descends (l : List α) : Prop := l.Pairwise fun a b => key b ≤ key a

section
variable {key}

/-! ### The insertion sort -/

variable {l : List α} (x : α)

theorem sink_perm (l : List α) : (sink key x l).Perm (x :: l) := by
  induction l with
  | nil => rfl
  | cons y rest ih =>
    rw [sink]
    split
    · exact (ih.cons y).trans (.swap x y rest)
    · rfl

theorem sink_descends {x : α} (h : Descends key l) : Descends key (sink key x l) := by
  induction l with
  | nil => exact pairwise_singleton _ x
  | cons y rest ih =>
    obtain ⟨hy, hrest⟩ := pairwise_cons.mp h
    rw [sink]
    split
    case isTrue hlt =>
      refine pairwise_cons.mpr ⟨fun z hz => ?_, ih hrest⟩
      rcases mem_cons.mp ((sink_perm x rest).mem_iff.mp hz) with rfl | hz
      · exact hlt.le
      · exact hy z hz
    case isFalse hle =>
      refine pairwise_cons.mpr ⟨fun z hz => ?_, h⟩
      rcases mem_cons.mp hz with rfl | hz
      · exact not_lt.mp hle
      · exact (hy z hz).trans (not_lt.mp hle)

theorem foldl_sink (l : List α) : ∀ {sorted : List α}, Descends key sorted →
    (l.foldl (fun sorted x => sink key x sorted) sorted).Perm (l ++ sorted) ∧
      Descends key (l.foldl (fun sorted x => sink key x sorted) sorted) := by
  induction l with
  | nil => exact fun h => ⟨.refl _, h⟩
  | cons x rest ih =>
    intro sorted h
    obtain ⟨hperm, hdesc⟩ := ih (sink_descends (x := x) h)
    exact ⟨hperm.trans (((sink_perm x sorted).append_left rest).trans perm_middle), hdesc⟩

theorem insertAll_perm (l : List α) : (insertAll key l).Perm l := by
  have h : (insertAll key l).Perm (l ++ []) := (foldl_sink l List.Pairwise.nil).1
  rwa [append_nil] at h

theorem insertAll_descends (l : List α) : Descends key (insertAll key l) :=
  (foldl_sink l List.Pairwise.nil).2

/-- The greatest key, if it is the only one, comes last. -/
theorem insertUp_getLast {x : α} (hx : x ∈ l) (hmax : ∀ y ∈ l, y ≠ x → key y < key x) :
    (insertUp key l).getLast? = some x := by
  rw [insertUp, getLast?_reverse]
  have hmem (y : α) : y ∈ insertAll key l ↔ y ∈ l := (insertAll_perm l).mem_iff
  cases hl : insertAll key l with
  | nil =>
    have hin := (hmem x).mpr hx
    rw [hl] at hin
    exact absurd hin not_mem_nil
  | cons y rest =>
    have hdesc : Descends key (insertAll key l) := insertAll_descends l
    rw [hl] at hmem hdesc
    by_contra hne
    have hyx : y ≠ x := fun hyx => hne (congrArg some hyx)
    rcases mem_cons.mp ((hmem x).mpr hx) with hxy | hxr
    · exact hyx hxy.symm
    have hlt := hmax y ((hmem y).mp mem_cons_self) hyx
    exact absurd (rel_of_pairwise_cons hdesc hxr) (not_le.mpr hlt)

/-! ### The exchange sort -/

theorem exchange_perm (l : List α) :
    ((exchange key x l).1 :: (exchange key x l).2).Perm (x :: l) := by
  induction l generalizing x with
  | nil => rfl
  | cons y rest ih =>
    rw [exchange]
    split
    · exact (List.Perm.swap x _ _).trans ((ih y).cons x)
    · exact (List.Perm.swap y _ _).trans (((ih x).cons y).trans (.swap x y rest))

theorem exchange_greatest (x : α) (l : List α) :
    key x ≤ key (exchange key x l).1 ∧ ∀ y ∈ (exchange key x l).2, key y ≤ key (exchange key x l).1 := by
  induction l generalizing x with
  | nil => exact ⟨le_rfl, fun _ hy => absurd hy not_mem_nil⟩
  | cons y rest ih =>
    rw [exchange]
    split
    case isTrue hlt =>
      have hx : key x ≤ key (exchange key y rest).1 := hlt.le.trans (ih y).1
      refine ⟨hx, fun z hz => ?_⟩
      rcases mem_cons.mp hz with rfl | hz
      · exact hx
      · exact (ih y).2 z hz
    case isFalse hle =>
      refine ⟨(ih x).1, fun z hz => ?_⟩
      rcases mem_cons.mp hz with rfl | hz
      · exact (not_lt.mp hle).trans (ih x).1
      · exact (ih x).2 z hz

theorem exchangeRounds_sorts : ∀ (n : Nat) {l : List α}, l.length ≤ n →
    (exchangeRounds key n l).Perm l ∧ Descends key (exchangeRounds key n l) := by
  intro n
  induction n with
  | zero =>
    intro l hl
    obtain rfl := length_eq_zero_iff.mp (Nat.le_zero.mp hl)
    exact ⟨.refl _, .nil⟩
  | succ n ih =>
    intro l hl
    cases l with
    | nil => exact ⟨.refl _, .nil⟩
    | cons x rest =>
      have hperm : ((exchange key x rest).1 :: (exchange key x rest).2).Perm (x :: rest) :=
        exchange_perm x rest
      have hlen : (exchange key x rest).2.length ≤ n := by
        have := hperm.length_eq
        simp only [length_cons] at this hl
        omega
      obtain ⟨hrest, hdesc⟩ := ih hlen
      refine ⟨(hrest.cons _).trans hperm, pairwise_cons.mpr ⟨fun y hy => ?_, hdesc⟩⟩
      exact (exchange_greatest x rest).2 y (hrest.mem_iff.mp hy)

/-- With one element per key, the two sorts give opposite orders. -/
theorem exchangeDown_eq (hkeys : ∀ a ∈ l, ∀ b ∈ l, key a = key b → a = b) :
    exchangeDown key l = (insertUp key l).reverse := by
  obtain ⟨hperm, hdesc⟩ : (exchangeDown key l).Perm l ∧ Descends key (exchangeDown key l) :=
    exchangeRounds_sorts l.length le_rfl
  rw [insertUp, reverse_reverse]
  refine (hperm.trans (insertAll_perm l).symm).eq_of_pairwise (fun a b ha hb hab hba => ?_) hdesc
    (insertAll_descends l)
  exact hkeys a (hperm.mem_iff.mp ha) b ((insertAll_perm l).mem_iff.mp hb) (le_antisymm hba hab)

end

end Nyx.Lib
