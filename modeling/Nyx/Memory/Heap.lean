import Nyx.Lib.Run
import Nyx.Lib.Tiling

/-! The kernel heap (`heap.c`): one arena of blocks with their headers in it.

A block is named by its offset in the arena, and headers are kept by that offset; that no two
overlap is part of what is shown. A size that fits is below the arena's, so no arithmetic on it
wraps. The loop of `heap_alloc` has as many turns as the arena has room for headers; `hung` would
record a call that did not end in them. -/
namespace Nyx.Heap
open Lib Function List

def heapSize : Nat := 16 * 1024 * 1024

/-- `sizeof(heap_block_t)`. -/
def headerSize : Nat := 24

structure Block where
  size : Nat
  used : Bool
  next : Option Nat
deriving DecidableEq, Repr

abbrev Arena : Type := Nat → Block

def initHeap (h : Arena) : Arena := Function.update h 0 ⟨heapSize - headerSize, false, none⟩

/-- A free block is taken; what it has to spare becomes a block of its own. -/
def take (h : Arena) (curr size : Nat) : Arena :=
  if size + headerSize + 16 < (h curr).size then
    Function.update (Function.update h (curr + headerSize + size)
        ⟨(h curr).size - size - headerSize, false, (h curr).next⟩)
      curr ⟨size, true, some (curr + headerSize + size)⟩
  else Function.update h curr {h curr with used := true}

/-- The loop of `heap_alloc`. -/
def allocFrom (size : Nat) (h : Arena) : (turns curr : Nat) → Option (Arena × Option Nat)
  | 0, _ => none
  | turns + 1, curr =>
    if (h curr).used = false ∧ size ≤ (h curr).size then
      some (take h curr size, some (curr + headerSize))
    else
      match (h curr).next with
      | none => some (h, none)
      | some next => allocFrom size h turns next

def heapAlloc (h : Arena) (size : Nat) : Option (Arena × Option Nat) :=
  allocFrom size h (heapSize / headerSize) 0

/-- `heap_free`: a free block behind this one is merged into it. -/
def heapFree (h : Arena) (ptr : Nat) : Arena :=
  let c := ptr - headerSize
  match (h c).next with
  | some n =>
    if (h n).used then Function.update h c {h c with used := false}
    else Function.update h c ⟨(h c).size + headerSize + (h n).size, false, (h n).next⟩
  | none => Function.update h c {h c with used := false}

/-- The heap with its live allocations: each pointer with the size that was asked for. -/
structure Store where
  arena : Arena
  live : List (Nat × Nat)
  hung : Bool

inductive Op where
  | alloc (size : Nat)
  | free (ptr : Nat)
deriving DecidableEq, Repr

namespace Store

def boot (h : Arena) : Store := ⟨initHeap h, [], false⟩

variable (s : Store)

def step : Op → Store
  | .alloc size =>
    match heapAlloc s.arena size with
    | none => {s with hung := true}
    | some (h, none) => {s with arena := h}
    | some (h, some p) => {s with arena := h, live := (p, size) :: s.live}
  | .free p => {s with arena := heapFree s.arena p, live := s.live.filter (·.1 ≠ p)}

def Lawful : Op → Prop
  | .alloc _ => True
  | .free p => p ∈ s.live.map Prod.fst

instance (s : Store) (op : Op) : Decidable (s.Lawful op) := by
  cases op <;> unfold Lawful <;> infer_instance

/-- The block of the list that links to `c`. -/
def before (h : Arena) (c : Nat) : (turns a : Nat) → Option Nat
  | 0, _ => none
  | turns + 1, a =>
    match (h a).next with
    | none => none
    | some b => if b = c then some a else before h c turns b

/-- Only live pointers are freed, and none whose block follows a free one. -/
def Ordered : Op → Prop
  | .alloc _ => True
  | .free p => p ∈ s.live.map Prod.fst ∧
      ∀ b ∈ before s.arena (p - headerSize) (heapSize / headerSize) 0, (s.arena b).used = true

instance (s : Store) (op : Op) : Decidable (s.Ordered op) := by
  cases op <;> unfold Ordered <;> infer_instance

end Store

/-! ### The blocks of the list -/

/-- The blocks `bs` fill the memory from `a` to `stop`. -/
abbrev Filled (stop : Nat) (h : Arena) (a : Nat) (bs : List Nat) : Prop :=
  Tiled headerSize stop (fun b => (h b).size) (fun b => (h b).next) a bs

abbrev Blocks (h : Arena) (a : Nat) (bs : List Nat) : Prop :=
  Tiled headerSize heapSize (fun b => (h b).size) (fun b => (h b).next) a bs

def usage (h : Arena) (bs : List Nat) : List Bool := bs.map fun b => (h b).used

variable {stop : Nat} {h h' : Arena} {bs l r : List Nat} {a c n : Nat}

theorem usage_around {g : List Nat} (hsame : ∀ b, b ∈ l ∨ b ∈ r → h' b = h b) :
    usage h' (l ++ c :: (g ++ r)) = usage h l ++ (h' c).used :: (usage h' g ++ usage h r) := by
  have hl : usage h' l = usage h l := map_congr_left fun b hb => by rw [hsame b (.inl hb)]
  have hr : usage h' r = usage h r := map_congr_left fun b hb => by rw [hsame b (.inr hb)]
  rw [← hl, ← hr]
  simp only [usage, map_append, map_cons]

/-- What is merged is free. -/
theorem not_mem_gone {P : Prop} (hg : usage h bs = [] ∧ P ∨ usage h bs = [false])
    (hu : (h a).used = true) : a ∉ bs := by
  intro ha
  have hmem : true ∈ usage h bs := mem_map.mpr ⟨a, ha, hu⟩
  rcases hg with ⟨hg, -⟩ | hg <;> simp [hg] at hmem

theorem walk_cases {β : Type} {w : Nat → Nat → Option β} {fits : Nat → Prop} [DecidablePred fits]
    {found : Nat → Option β} {missing : Option β} (hw : ∀ turns b, w (turns + 1) b =
      if fits b then found b else match (h b).next with
        | none => missing
        | some c => w turns c) {turns : Nat} (hb : Filled stop h a bs) (hne : bs ≠ [])
    (hturns : bs.length ≤ turns) :
    w turns a = missing ∨ ∃ c ∈ bs, fits c ∧ w turns a = found c := by
  induction bs generalizing a turns with
  | nil => exact absurd rfl hne
  | cons b rest ih =>
    obtain ⟨rfl, hnext, hrest⟩ := hb
    obtain ⟨turns, rfl⟩ : ∃ n, turns = n + 1 := ⟨turns - 1, by simp at hturns; omega⟩
    rw [hw]
    split
    case isTrue hfit => exact .inr ⟨b, .head _, hfit, rfl⟩
    case isFalse =>
      cases rest with
      | nil => exact .inl (by rw [show (h b).next = none from hnext])
      | cons b' rest' =>
        rw [show (h b).next = some b' from hnext]
        have hb' : b' = b + headerSize + (h b).size := hrest.1
        rcases ih hrest (cons_ne_nil _ _) (Nat.le_of_succ_le_succ hturns) with hnone | hsome
        · exact .inl (hb' ▸ hnone)
        obtain ⟨c, hc, hfit, heq⟩ := hsome
        exact .inr ⟨c, .tail _ hc, hfit, hb' ▸ heq⟩

/-- The other blocks of the list end before a block or start behind its end. -/
theorem Filled.others (hb : Filled stop h a (l ++ c :: r)) {b : Nat} (hbs : b ∈ l ∨ b ∈ r) :
    b + headerSize + (h b).size ≤ c ∨ c + headerSize + (h c).size ≤ b := by
  have hp := pairwise_append.mp hb.pairwise
  rcases hbs with hbl | hbr
  · exact .inl (hp.2.2 b hbl c (.head _))
  · exact .inr ((pairwise_cons.mp hp.2.1).1 b hbr)

theorem mem_other {b : Nat} (hbs : b ∈ l ++ c :: r) (hne : b ≠ c) : b ∈ l ∨ b ∈ r := by
  rcases mem_append.mp hbs with hbl | hbr
  · exact .inl hbl
  · exact .inr ((mem_cons.mp hbr).resolve_left hne)

theorem Filled.apart (hb : Filled stop h a bs) (hc : c ∈ bs) {b : Nat} (hbs : b ∈ bs) (hne : b ≠ c) :
    b + headerSize + (h b).size ≤ c ∨ c + headerSize + (h c).size ≤ b := by
  obtain ⟨l, r, rfl⟩ := append_of_mem hc
  exact hb.others (mem_other hbs hne)

theorem Filled.other_ne (hb : Filled stop h a (l ++ c :: r)) {b : Nat} (hbs : b ∈ l ∨ b ∈ r) :
    b ≠ c := by
  have := hb.others hbs
  simp only [headerSize] at this
  omega

/-- A change inside the extent of one block: the blocks around it stay. -/
theorem Filled.change {r' : List Nat} (hb : Filled stop h a (l ++ c :: r))
    (hsame : ∀ b, b ∈ l ∨ b ∈ r → h' b = h b)
    (hrest : Filled stop h c (c :: r) → Filled stop h' (c + headerSize + (h c).size) r →
      Filled stop h' c (c :: r')) : Filled stop h' a (l ++ c :: r') := by
  refine hb.splice (fun b hbl => ?_) (fun b hbl => ?_) fun ht => hrest ht ?_
  · rw [hsame b (.inl hbl)]
  · rw [hsame b (.inl hbl)]
  · exact ht.2.2.congr (fun b hbr => by rw [hsame b (.inr hbr)]) fun b hbr => by
      rw [hsame b (.inr hbr)]

/-- A mark alone moves no block. -/
theorem Filled.mark (hb : Filled stop h a bs) (used : Bool) :
    Filled stop (update h c ⟨(h c).size, used, (h c).next⟩) a bs := by
  refine hb.congr (fun b _ => ?_) fun b _ => ?_
  · by_cases hbc : b = c <;> simp [hbc]
  · by_cases hbc : b = c <;> simp [hbc]

/-- A block is cut in two, of which the first is taken. -/
def cut (h : Arena) (c size : Nat) : Arena :=
  Function.update (Function.update h (c + headerSize + size)
      ⟨(h c).size - size - headerSize, false, (h c).next⟩)
    c ⟨size, true, some (c + headerSize + size)⟩

theorem Filled.cut {size : Nat} (hb : Filled stop h a (l ++ c :: r))
    (hcut : size + headerSize ≤ (h c).size) :
    Filled stop (cut h c size) a (l ++ c :: (c + headerSize + size) :: r) ∧
      (cut h c size (c + headerSize + size)).used = false ∧
      ∀ b, b ∈ l ∨ b ∈ r → cut h c size b = h b := by
  have hin : c < c + headerSize + size := by simp only [headerSize]; omega
  have hself : Heap.cut h c size (c + headerSize + size) =
      ⟨(h c).size - size - headerSize, false, (h c).next⟩ := by
    rw [Heap.cut, update_of_ne hin.ne', update_self]
  have hsame (b : Nat) (hbs : b ∈ l ∨ b ∈ r) : Heap.cut h c size b = h b := by
    have hout := hb.others hbs
    have hbn : b ≠ c + headerSize + size := by simp only [headerSize] at hout hcut ⊢; omega
    rw [Heap.cut, update_of_ne (hb.other_ne hbs), update_of_ne hbn]
  refine ⟨hb.change hsame fun ht hr => ?_, by rw [hself], hsame⟩
  have hend : c + headerSize + size + headerSize + ((h c).size - size - headerSize) =
      c + headerSize + (h c).size := by omega
  simp only [Tiled, head?_cons, hself, true_and]
  simp only [Heap.cut, update_self, true_and, hend]
  exact ⟨ht.2.1, hr⟩

/-- A block is merged with the one behind it, and both are free. -/
def absorb (h : Arena) (c n : Nat) : Arena :=
  Function.update h c ⟨(h c).size + headerSize + (h n).size, false, (h n).next⟩

theorem Filled.absorb (hb : Filled stop h a (l ++ c :: n :: r)) :
    Filled stop (absorb h c n) a (l ++ c :: r) ∧ ∀ b, b ∈ l ∨ b ∈ r → absorb h c n b = h b := by
  have hsame (b : Nat) (hbs : b ∈ l ∨ b ∈ n :: r) : Heap.absorb h c n b = h b :=
    update_of_ne (hb.other_ne hbs) ..
  refine ⟨hb.change hsame fun ht hr => ?_, fun b hbs => hsame b (hbs.imp_right (.tail _))⟩
  obtain ⟨-, hnext, hr⟩ := hr
  have hend : c + headerSize + ((h c).size + headerSize + (h n).size) =
      c + headerSize + (h c).size + headerSize + (h n).size := by omega
  simp only [hsame n (.inr (.head _))] at hnext hr
  simp only [Tiled, Heap.absorb, update_self, true_and, hend]
  exact ⟨hnext, hr⟩

theorem taken_blocks {size : Nat} {P : Prop} [Decidable P] (hP : P → size + headerSize ≤ (h c).size)
    (hb : Filled stop h a bs) (hc : c ∈ bs) (hsize : size ≤ (h c).size)
    (hh : h' = if P then cut h c size else update h c {h c with used := true}) :
    ∃ l r g, bs = l ++ c :: r ∧ Filled stop h' a (l ++ c :: (g ++ r)) ∧ (h' c).used = true ∧
      size ≤ (h' c).size ∧ (∀ b, b ∈ l ∨ b ∈ r → h' b = h b) ∧
      (usage h' g = [] ∨ usage h' g = [false]) := by
  obtain ⟨l, r, rfl⟩ := append_of_mem hc
  subst hh
  split
  case isFalse =>
    exact ⟨l, r, [], rfl, hb.mark _, by rw [update_self], by rwa [update_self],
      fun b hbs => update_of_ne (hb.other_ne hbs) .., .inl rfl⟩
  case isTrue hcut =>
    obtain ⟨hb', hfree, hsame⟩ := hb.cut (hP hcut)
    exact ⟨l, r, [_], rfl, hb', by rw [cut, update_self], by rw [cut, update_self],
      hsame, .inr (congrArg (fun x => [x]) hfree)⟩

/-- A block is marked free, and the free block behind it is merged into it. -/
theorem heapFree_cases (h : Arena) (c : Nat) :
    heapFree h (c + headerSize) = update h c ⟨(h c).size, false, (h c).next⟩ ∧
        (∀ n ∈ (h c).next, (h n).used = true) ∨
      ∃ n, (h c).next = some n ∧ (h n).used = false ∧
        heapFree h (c + headerSize) = absorb h c n := by
  unfold heapFree
  simp only [Nat.add_sub_cancel]
  split
  case h_2 hnone => exact .inl ⟨rfl, by simp [hnone]⟩
  case h_1 n hn =>
    split
    case isTrue hused => exact .inl ⟨rfl, by simp [hn, hused]⟩
    case isFalse hfree => exact .inr ⟨n, hn, Bool.eq_false_iff.mpr hfree, rfl⟩

theorem heapFree_blocks (hb : Filled stop h a bs) (hc : c ∈ bs) : ∃ l r g,
    bs = l ++ c :: (g ++ r) ∧ Filled stop (heapFree h (c + headerSize)) a (l ++ c :: r) ∧
      (heapFree h (c + headerSize) c).used = false ∧
      (∀ b, b ∈ l ∨ b ∈ r → heapFree h (c + headerSize) b = h b) ∧
      (usage h g = [] ∧ (∀ x ∈ (usage h r).head?, x = true) ∨ usage h g = [false]) := by
  obtain ⟨l, r, rfl⟩ := append_of_mem hc
  rcases heapFree_cases h c with ⟨hmark, hused⟩ | ⟨n, hn, hfree, hmerge⟩
  · rw [hmark]
    refine ⟨l, r, [], rfl, hb.mark _, by rw [update_self],
      fun b hbs => update_of_ne (hb.other_ne hbs) .., .inl ⟨rfl, fun x hx => ?_⟩⟩
    rw [usage, head?_map, ← hb.next_eq] at hx
    obtain ⟨n, hn, rfl⟩ := Option.map_eq_some_iff.mp hx
    exact hused n hn
  · rw [hmerge]
    -- the block behind `c` is `n`, and it leaves the list
    obtain ⟨r, rfl⟩ : ∃ r', r = n :: r' := by
      have hhead := hn.symm.trans hb.next_eq
      cases r with
      | nil => cases hhead
      | cons b r' => exact ⟨r', by rw [Option.some.inj hhead]⟩
    obtain ⟨hb', hsame⟩ := hb.absorb
    exact ⟨l, r, [n], rfl, hb', by rw [absorb, update_self], hsame,
      .inr (by rw [usage, map_singleton, hfree])⟩

/-! ### Every run -/

namespace Store

/-- The blocks of the list fill the arena, and each live allocation has a used one. -/
structure Holds (s : Store) (bs : List Nat) : Prop where
  hung : s.hung = false
  blocks : Blocks s.arena 0 bs
  live : ∀ x ∈ s.live, ∃ b ∈ bs, x.1 = b + headerSize ∧ (s.arena b).used = true ∧
    x.2 ≤ (s.arena b).size
  distinct : (s.live.map Prod.fst).Nodup

theorem holds_boot (h : Arena) : (boot h).Holds [0] where
  hung := rfl
  blocks := by simp [Tiled, boot, initHeap, heapSize, headerSize]
  live := fun _ hx => nomatch hx
  distinct := .nil

variable {s : Store} {bs : List Nat}

theorem before_eq {l r : List Nat} {h : Arena} {stop a b c turns : Nat}
    (hb : Filled stop h a (l ++ b :: c :: r)) (hturns : l.length < turns) :
    before h c turns a = some b := by
  induction l generalizing a turns with
  | nil =>
    obtain ⟨turns, rfl⟩ := Nat.exists_eq_add_one.mpr hturns
    obtain ⟨rfl, hnext, -⟩ := hb
    rw [before, show (h b).next = some c from hnext]
    exact if_pos rfl
  | cons d rest ih =>
    obtain ⟨turns, rfl⟩ := Nat.exists_eq_add_one.mpr (Nat.zero_lt_of_lt hturns)
    obtain ⟨rfl, hnext, hrest⟩ := hb
    have hlast := ih hrest (Nat.lt_of_succ_lt_succ hturns)
    obtain ⟨e, tail, he, hc⟩ : ∃ e tail, rest ++ b :: c :: r = e :: tail ∧ c ∈ tail := by
      cases rest with
      | nil => exact ⟨b, c :: r, rfl, .head _⟩
      | cons e rest' => exact ⟨e, rest' ++ b :: c :: r, rfl, by simp⟩
    rw [show rest.append (b :: c :: r) = e :: tail from he] at hnext hrest
    have hec := (pairwise_cons.mp hrest.pairwise).1 c hc
    have hne : e ≠ c := by simp only [headerSize] at hec; omega
    rw [before, show (h d).next = some e from hnext]
    dsimp only
    rw [if_neg hne, hrest.1]
    exact hlast

/-- Every used block is a live allocation, and of two blocks in a row one is used. -/
structure Neat (s : Store) (bs : List Nat) : Prop where
  owned : ∀ b ∈ bs, (s.arena b).used = true → b + headerSize ∈ s.live.map Prod.fst
  parted : Parted (usage s.arena bs)

theorem Holds.alloc (hs : s.Holds bs) (size : Nat) : ∃ bs', (s.step (.alloc size)).Holds bs' ∧
    (s.Neat bs → (s.step (.alloc size)).Neat bs') := by
  have hne : bs ≠ [] := by
    rintro rfl
    exact absurd (show 0 = heapSize from hs.blocks) (by decide)
  have hturns : bs.length ≤ heapSize / headerSize := by
    have := hs.blocks.length_le
    rw [Nat.le_div_iff_mul_le (by decide)]
    omega
  rcases walk_cases (w := allocFrom size s.arena) (fun _ _ => by rw [allocFrom]) hs.blocks hne hturns
    with hnone | hsome
  · refine ⟨bs, ?_⟩
    simp only [step, heapAlloc, hnone]
    exact ⟨hs, fun hn => hn⟩
  obtain ⟨c, hc, ⟨hfree, hsize⟩, heq⟩ := hsome
  obtain ⟨l, r, g, rfl, hb', hused, hfit, hkeep, hrest⟩ :=
    taken_blocks (by omega) hs.blocks hc hsize (rfl : take s.arena c size = _)
  -- a live block is used, so it is not the one taken
  have hnew (x : Nat × Nat) (hx : x ∈ s.live) : x.1 ≠ c + headerSize := by
    obtain ⟨b, -, hat, hu, -⟩ := hs.live x hx
    intro hxc
    rw [Nat.add_right_cancel (hat.symm.trans hxc), hfree] at hu
    cases hu
  refine ⟨l ++ c :: (g ++ r), ?_⟩
  simp only [step, heapAlloc, heq]
  refine ⟨⟨hs.hung, hb', fun x hx => ?_, ?_⟩, fun hn => ⟨fun b hb hu => ?_, ?_⟩⟩
  · rcases mem_cons.mp hx with rfl | hx
    · exact ⟨c, by simp, rfl, hused, hfit⟩
    obtain ⟨b, hb, hat, hu, hle⟩ := hs.live x hx
    have hother := mem_other hb fun hbc => hnew x hx (hbc ▸ hat)
    rw [← hkeep b hother] at hu hle
    exact ⟨b, by simp only [mem_append, mem_cons]; tauto, hat, hu, hle⟩
  · rw [map_cons, nodup_cons]
    refine ⟨fun hin => ?_, hs.distinct⟩
    obtain ⟨x, hx, hxc⟩ := mem_map.mp hin
    exact hnew x hx hxc
  · by_cases hbc : b = c
    · exact hbc ▸ .head _
    have hother : b ∈ l ∨ b ∈ r := (mem_other hb hbc).imp_right fun hb =>
      (mem_append.mp hb).resolve_left (not_mem_gone (hrest.imp_left fun h => ⟨h, trivial⟩) hu)
    have hu : (take s.arena c size b).used = true := hu
    rw [hkeep b hother] at hu
    refine .tail _ (hn.owned b ?_ hu)
    simp only [mem_append, mem_cons]
    tauto
  · have hparted := hn.parted
    rw [show l ++ c :: r = l ++ c :: ([] ++ r) from rfl, usage_around fun _ _ => rfl, hfree]
      at hparted
    rw [usage_around hkeep, hused]
    exact hparted.take (.inl rfl) hrest

theorem Holds.free (hs : s.Holds bs) {p : Nat} (hp : p ∈ s.live.map Prod.fst) :
    ∃ bs', (s.step (.free p)).Holds bs' ∧
      (s.Neat bs → s.Ordered (.free p) → (s.step (.free p)).Neat bs') := by
  obtain ⟨x, hx, rfl⟩ := mem_map.mp hp
  obtain ⟨c, hc, hat, hcused, -⟩ := hs.live x hx
  obtain ⟨l, r, g, rfl, hb', hfree, hkeep, hgone⟩ := heapFree_blocks hs.blocks hc
  rw [← hat] at hb' hkeep hfree
  refine ⟨l ++ c :: r, ⟨hs.hung, hb', fun y hy => ?_,
    hs.distinct.sublist (filter_sublist.map _)⟩, fun hn hord => ⟨fun b hb hu => ?_, ?_⟩⟩
  · obtain ⟨hy, hne⟩ := mem_filter.mp hy
    obtain ⟨b, hb, hyat, hu, hle⟩ := hs.live y hy
    have hother : b ∈ l ∨ b ∈ r :=
      (mem_other hb fun hbc => by simp [hyat, hat, hbc] at hne).imp_right fun hb =>
        (mem_append.mp hb).resolve_left (not_mem_gone hgone hu)
    rw [← hkeep b hother] at hu hle
    exact ⟨b, by simp only [mem_append, mem_cons]; tauto, hyat, hu, hle⟩
  · have hu : (heapFree s.arena x.1 b).used = true := hu
    have hbc : b ≠ c := by
      rintro rfl
      rw [hfree] at hu
      cases hu
    have hother := mem_other hb hbc
    rw [hkeep b hother] at hu
    obtain ⟨y, hy, hyb⟩ := mem_map.mp (hn.owned b (by simp only [mem_append, mem_cons]; tauto) hu)
    exact mem_map.mpr ⟨y, mem_filter.mpr ⟨hy, by simp [hyb, hat, hbc]⟩, hyb⟩
  · have hparted := hn.parted
    rw [usage_around fun _ _ => rfl, hcused] at hparted
    rw [show l ++ c :: r = l ++ c :: ([] ++ r) from rfl, step, usage_around hkeep, hfree]
    refine hparted.free (fun u hu => ?_) hgone
    rw [usage, getLast?_map] at hu
    obtain ⟨b, hlast, rfl⟩ := Option.map_eq_some_iff.mp hu
    obtain ⟨l, rfl⟩ := getLast?_eq_some_iff.mp hlast
    have hblocks := hs.blocks
    have hlen := hblocks.length_le
    rw [append_assoc, singleton_append] at hblocks
    refine hord.2 b ?_
    rw [hat, Nat.add_sub_cancel]
    refine before_eq hblocks ?_
    rw [Nat.lt_div_iff_mul_lt (by decide)]
    simp [headerSize] at hlen ⊢
    omega

/-- The regions `[p, p + n)` and `[q, q + m)` have no byte in common. -/
def Clear (p n q m : Nat) : Prop := p + n ≤ q ∨ q + m ≤ p

section
variable {h : Arena} {stop a b c n : Nat} (hb : Filled stop h a bs) (hbs : b ∈ bs) (hc : c ∈ bs)
  (hn : n ≤ (h b).size)
include hb hbs hc hn

/-- What lies in a block overlaps no header, its own included. -/
theorem clear_header : Clear (b + headerSize) n c headerSize := by
  by_cases hbc : c = b
  · exact .inr (by omega)
  rcases hb.apart hbs hc hbc with h | h
  · exact .inr (by omega)
  · exact .inl (by omega)

theorem clear_block {m : Nat} (hm : m ≤ (h c).size) (hne : c ≠ b) :
    Clear (b + headerSize) n (c + headerSize) m := by
  rcases hb.apart hbs hc hne with h | h
  · exact .inr (by omega)
  · exact .inl (by omega)

end

/-- The integrity of the heap. The blocks reached from the list head fill the arena, each header
where the block before it ends; every live allocation is a used block of at least the size asked
for; no two of them have a byte in common, and none has one in common with a header. -/
theorem heap_integrity (h : Arena) (ops : List Op) (hops : Admissible step Lawful (boot h) ops) :
    ∃ bs, Blocks (run step (boot h) ops).arena 0 bs ∧
      (bs.map fun b => headerSize + ((run step (boot h) ops).arena b).size).sum = heapSize ∧
      (run step (boot h) ops).hung = false ∧
      (∀ x ∈ (run step (boot h) ops).live, (∃ b ∈ bs, x.1 = b + headerSize ∧
          ((run step (boot h) ops).arena b).used = true ∧
          x.2 ≤ ((run step (boot h) ops).arena b).size) ∧
        ∀ b ∈ bs, Clear x.1 x.2 b headerSize) ∧
      (run step (boot h) ops).live.Pairwise fun x y => Clear x.1 x.2 y.1 y.2 := by
  obtain ⟨bs, hs⟩ : ∃ bs, (run step (boot h) ops).Holds bs := by
    refine run_invariant (P := fun s => ∃ bs, s.Holds bs) (fun s op hs hr => ?_) _ ops
      ⟨_, holds_boot h⟩ hops
    obtain ⟨bs, hs⟩ := hs
    cases op with
    | alloc size => exact (hs.alloc size).imp fun _ h => h.1
    | free p => exact (hs.free hr).imp fun _ h => h.1
  refine ⟨bs, hs.blocks, ?_, hs.hung, fun x hx => ⟨hs.live x hx, fun c hc => ?_⟩,
    (List.pairwise_map.mp hs.distinct).imp_of_mem fun hx hy hne => ?_⟩
  · rw [← hs.blocks.sum, Nat.zero_add]
  · obtain ⟨b, hb, hat, -, hle⟩ := hs.live x hx
    exact hat ▸ clear_header hs.blocks hb hc hle
  · obtain ⟨b, hb, hxat, -, hxle⟩ := hs.live _ hx
    obtain ⟨c, hc, hyat, -, hyle⟩ := hs.live _ hy
    rw [hxat, hyat] at hne ⊢
    exact clear_block hs.blocks hb hc hxle hyle (by omega)

/-- The first of two allocations is freed, and a smaller one cuts its block. -/
theorem heap_integrity_reuse : (run step (boot fun _ => ⟨0, false, none⟩)
      [.alloc 100, .alloc 200, .free 24, .alloc 40]).live = [(24, 40), (148, 200)] ∧
    ∃ bs, Blocks (run step (boot fun _ => ⟨0, false, none⟩)
      [.alloc 100, .alloc 200, .free 24, .alloc 40]).arena 0 bs := by
  refine ⟨by decide +kernel, ?_⟩
  obtain ⟨bs, hbs, -⟩ := heap_integrity (fun _ => ⟨0, false, none⟩)
    [.alloc 100, .alloc 200, .free 24, .alloc 40] (by decide +kernel)
  exact ⟨bs, hbs⟩

/-- Where no block is freed behind a free one, a heap without live allocations is one free block of
its initial size again, in whatever order they were made and freed. -/
theorem heap_coalesces (h : Arena) (ops : List Op)
    (hops : Admissible step Ordered (boot h) ops) (hlive : (run step (boot h) ops).live = []) :
    (run step (boot h) ops).arena 0 = ⟨heapSize - headerSize, false, none⟩ ∧
      (heapAlloc (run step (boot h) ops).arena (heapSize - headerSize)).map Prod.snd =
        some (some headerSize) := by
  obtain ⟨bs, hs, hn⟩ : ∃ bs, (run step (boot h) ops).Holds bs ∧ (run step (boot h) ops).Neat bs := by
    refine run_invariant (P := fun s => ∃ bs, s.Holds bs ∧ s.Neat bs) (fun s op hs hr => ?_) _ ops
      ⟨_, holds_boot h, ⟨fun b hb hu => ?_, .singleton _⟩⟩ hops
    · obtain ⟨bs, hs, hn⟩ := hs
      cases op with
      | alloc size => exact (hs.alloc size).imp fun _ h => ⟨h.1, h.2 hn⟩
      | free p => exact (hs.free hr.1).imp fun _ h => ⟨h.1, h.2 hn hr⟩
    · obtain rfl := List.mem_singleton.mp hb
      cases hu
  generalize run step (boot h) ops = s at hs hn hlive
  have hfree (b : Nat) (hb : b ∈ bs) : (s.arena b).used = false := by
    refine Bool.eq_false_iff.mpr fun hu => ?_
    have := hn.owned b hb hu
    rw [hlive] at this
    cases this
  have hone := hn.parted.length_le_one fun u hu => by
    obtain ⟨b, hb, rfl⟩ := List.mem_map.mp hu
    exact hfree b hb
  have hblocks := hs.blocks
  rcases bs with _ | ⟨b, _ | ⟨b', rest⟩⟩
  · exact absurd (show 0 = heapSize from hblocks) (by decide)
  · obtain ⟨rfl, hnext, hend⟩ := hblocks
    have hsize : (s.arena 0).size = heapSize - headerSize := by
      have : 0 + headerSize + (s.arena 0).size = heapSize := hend
      omega
    have hzero : s.arena 0 = ⟨heapSize - headerSize, false, none⟩ := by
      rw [← hsize, ← hfree 0 (.head _), ← show (s.arena 0).next = none from hnext]
    refine ⟨hzero, ?_⟩
    rw [heapAlloc, show heapSize / headerSize = 699049 + 1 from by decide, allocFrom,
      if_pos ⟨hfree 0 (.head _), hsize.ge⟩]
    rfl
  · simp [usage] at hone

/-- Two allocations are freed, the second one first, and the whole heap is there again. -/
theorem heap_coalesces_reverse : (run step (boot fun _ => ⟨0, false, none⟩)
        [.alloc 100, .alloc 200, .free 148, .free 24]).live = [] ∧
      (run step (boot fun _ => ⟨0, false, none⟩)
        [.alloc 100, .alloc 200, .free 148, .free 24]).arena 0 =
        ⟨heapSize - headerSize, false, none⟩ :=
  ⟨by decide +kernel, (heap_coalesces _ _ (by decide +kernel) (by decide +kernel)).1⟩

/-- The same two, the first one first: the heap is in two pieces and has no room for all of it. -/
theorem heap_split_forever : Admissible step Lawful (boot fun _ => ⟨0, false, none⟩)
        [.alloc 100, .alloc 200, .free 24, .free 148] ∧
      (run step (boot fun _ => ⟨0, false, none⟩)
        [.alloc 100, .alloc 200, .free 24, .free 148]).live = [] ∧
      (run step (boot fun _ => ⟨0, false, none⟩)
        [.alloc 100, .alloc 200, .free 24, .free 148]).arena 0 = ⟨100, false, some 124⟩ ∧
      (heapAlloc (run step (boot fun _ => ⟨0, false, none⟩)
        [.alloc 100, .alloc 200, .free 24, .free 148]).arena (heapSize - headerSize)).map Prod.snd =
        some none := by
  decide +kernel

end Store

end Nyx.Heap
