import Mathlib

/-! Blocks with headers in one arena, linked in the order of their addresses.

A block is named by its offset: a header of `hdr` bytes, then `size` bytes, and `next` is the block
its header links to. `Tiled … a bs` says that the blocks `bs` fill the arena from `a` to its end
without a gap and that each links to the one behind it. A block may be cut in two or merged with the
next by a change to its own extent (`Tiled.splice`). -/
namespace Nyx.Lib
open List

variable {hdr stop : Nat} {size size' : Nat → Nat} {next next' : Nat → Option Nat}

def Tiled (hdr stop : Nat) (size : Nat → Nat) (next : Nat → Option Nat) : Nat → List Nat → Prop
  | a, [] => a = stop
  | a, b :: rest =>
    b = a ∧ next b = rest.head? ∧ Tiled hdr stop size next (a + hdr + size b) rest

namespace Tiled
variable {a c : Nat} {bs l r r' : List Nat}

section
variable (h : Tiled hdr stop size next a bs)
include h

/-- Every block lies between the start and the end. -/
theorem bounds : a ≤ stop ∧ ∀ b ∈ bs, a ≤ b ∧ b + hdr + size b ≤ stop := by
  induction bs generalizing a with
  | nil => exact ⟨Nat.le_of_eq h, fun b hb => nomatch hb⟩
  | cons b rest ih =>
    obtain ⟨rfl, -, hrest⟩ := h
    obtain ⟨hle, hin⟩ := ih hrest
    refine ⟨by omega, fun b' hb' => ?_⟩
    rcases mem_cons.mp hb' with rfl | hb'
    · exact ⟨Nat.le_refl _, hle⟩
    have := hin b' hb'
    omega

/-- A block ends before the next one starts. -/
theorem pairwise : bs.Pairwise fun b b' => b + hdr + size b ≤ b' := by
  induction bs generalizing a with
  | nil => exact .nil
  | cons b rest ih =>
    obtain ⟨rfl, -, hrest⟩ := h
    exact .cons (fun b' hb' => (hrest.bounds.2 b' hb').1) (ih hrest)

theorem sum : a + (bs.map fun b => hdr + size b).sum = stop := by
  induction bs generalizing a with
  | nil => exact h
  | cons b rest ih =>
    obtain ⟨rfl, -, hrest⟩ := h
    have := ih hrest
    rw [map_cons, sum_cons]
    omega

theorem length_le : a + bs.length * hdr ≤ stop := by
  induction bs generalizing a with
  | nil => exact Nat.le_of_eq (by rw [length_nil, Nat.zero_mul]; exact h)
  | cons b rest ih =>
    obtain ⟨rfl, -, hrest⟩ := h
    have := ih hrest
    rw [length_cons, Nat.succ_mul]
    omega

theorem congr (hsize : ∀ b ∈ bs, size' b = size b) (hnext : ∀ b ∈ bs, next' b = next b) :
    Tiled hdr stop size' next' a bs := by
  induction bs generalizing a with
  | nil => exact h
  | cons b rest ih =>
    obtain ⟨rfl, hb, hrest⟩ := h
    refine ⟨rfl, (hnext b (.head _)).trans hb, ?_⟩
    rw [hsize b (.head _)]
    exact ih hrest (fun b' hb' => hsize b' (.tail _ hb')) fun b' hb' => hnext b' (.tail _ hb')

end

theorem next_eq (h : Tiled hdr stop size next a (l ++ c :: r)) : next c = r.head? := by
  induction l generalizing a with
  | nil => exact h.2.1
  | cons b rest ih => exact ih h.2.2

/-- What follows a block is replaced, with nothing before it changed. -/
theorem splice {stop' : Nat} (h : Tiled hdr stop size next a (l ++ c :: r))
    (hsize : ∀ b ∈ l, size' b = size b) (hnext : ∀ b ∈ l, next' b = next b)
    (hrest : Tiled hdr stop size next c (c :: r) → Tiled hdr stop' size' next' c (c :: r')) :
    Tiled hdr stop' size' next' a (l ++ c :: r') := by
  induction l generalizing a with
  | nil =>
    obtain rfl : c = a := h.1
    exact hrest h
  | cons b rest ih =>
    obtain ⟨rfl, hb, htail⟩ := h
    refine ⟨rfl, ?_, ?_⟩
    · rw [hnext b (.head _), hb]
      cases rest <;> rfl
    · rw [hsize b (.head _)]
      exact ih htail (fun b' hb' => hsize b' (.tail _ hb')) fun b' hb' => hnext b' (.tail _ hb')

/-- A block is put behind the last one. -/
theorem concat {stop' : Nat} (h : Tiled hdr stop size next a (l ++ [c]))
    (hsize : ∀ b ∈ l ++ [c], size' b = size b) (hnext : ∀ b ∈ l, next' b = next b)
    (hc : next' c = some stop) (hn : next' stop = none) (hstop : stop' = stop + hdr + size' stop) :
    Tiled hdr stop' size' next' a (l ++ [c, stop]) := by
  refine h.splice (fun b hb => hsize b (mem_append_left _ hb)) hnext fun hlast => ?_
  obtain ⟨-, -, rfl⟩ := hlast
  refine ⟨rfl, hc, ?_⟩
  rw [hsize c (mem_append_right _ (.head _))]
  exact ⟨rfl, hn, hstop.symm⟩

end Tiled

/-! ### No two free blocks in a row -/

/-- Of two neighbours, one is in use. -/
def Parted (us : List Bool) : Prop := us.IsChain fun x y => x = true ∨ y = true

namespace Parted
variable {l r g : List Bool}

/-- A free block is taken, with or without a rest that stays free. -/
theorem take {x : Bool} (h : Parted (l ++ x :: r)) (hx : x = false ∨ r = [])
    (hg : g = [] ∨ g = [false]) : Parted (l ++ true :: (g ++ r)) := by
  obtain ⟨hl, hxr, -⟩ := isChain_append.mp h
  obtain ⟨hhead, hr⟩ := isChain_cons.mp hxr
  refine isChain_append.mpr ⟨hl, isChain_cons.mpr ⟨fun _ _ => .inl rfl, ?_⟩,
    fun _ _ _ hy => .inr (Option.some.inj hy).symm⟩
  rcases hg with rfl | rfl
  · exact hr
  rcases hx with rfl | rfl
  · exact isChain_cons.mpr ⟨hhead, hr⟩
  · exact .singleton _

/-- The block before a used one is left out: what was before it is in use if it is free. -/
theorem leave (h : Parted (l ++ false :: true :: r)) :
    Parted (l ++ true :: r) ∧ ∀ x ∈ l.getLast?, x = true := by
  obtain ⟨hl, hr, hlast⟩ := isChain_append.mp h
  obtain ⟨-, hr⟩ := isChain_cons.mp hr
  refine ⟨isChain_append.mpr ⟨hl, hr, fun _ _ _ hy => .inr (Option.some.inj hy).symm⟩,
    fun x hx => (hlast x hx false rfl).resolve_right Bool.false_ne_true⟩

theorem concat (h : Parted l) : Parted (l ++ [true]) :=
  isChain_append.mpr ⟨h, .singleton _, fun _ _ _ hy => .inr (Option.some.inj hy).symm⟩

/-- A block is freed, and a free one behind it merged into it. The one before it is in use. -/
theorem free (h : Parted (l ++ true :: (g ++ r))) (hl : ∀ x ∈ l.getLast?, x = true)
    (hg : g = [] ∧ (∀ x ∈ r.head?, x = true) ∨ g = [false]) : Parted (l ++ false :: r) := by
  obtain ⟨hchain, hr, -⟩ := isChain_append.mp h
  obtain ⟨-, hr⟩ := isChain_cons.mp hr
  refine isChain_append.mpr ⟨hchain, isChain_cons.mpr ?_, fun x hx _ _ => .inl (hl x hx)⟩
  rcases hg with ⟨rfl, hhead⟩ | rfl
  · exact ⟨fun x hx => .inr (hhead x hx), hr⟩
  · exact isChain_cons.mp hr

/-- With no block in use there is only one. -/
theorem length_le_one (h : Parted l) (hfree : ∀ x ∈ l, x = false) : l.length ≤ 1 := by
  rcases l with _ | ⟨x, _ | ⟨y, rest⟩⟩
  · exact Nat.zero_le _
  · exact Nat.le_refl _
  · have hxy := (isChain_cons_cons.mp h).1
    rw [hfree x (.head _), hfree y (.tail _ (.head _))] at hxy
    rcases hxy with hxy | hxy <;> cases hxy

end Parted

end Nyx.Lib
