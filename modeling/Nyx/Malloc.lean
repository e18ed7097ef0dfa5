import Nyx.Lib.Wrapping
import Nyx.Memory.Heap
import Nyx.Paging.Fault

/-! The allocator of user programs (`user/libc.c`).

A block has the header of the kernel's heap and is freed in the same way (`heapFree`), and then
merged into a free block before it as well. Memory comes from `sbrk`; every call of it is given
whether it is let through. Sizes are 64 bits wide and wrap. A loop over the list has more turns
than there can be blocks below the break; `hung` records a call that did not end in them. -/
namespace Nyx.Malloc
open Nyx.Lib Nyx.Heap Function List Heap.Store
open Nyx.Paging (Space sharedLibcBase)

structure User where
  arena : Arena
  heapBase : Option Nat
  space : Space

/-- `(size + 7) & ~7`, of a size that is not 0. -/
def roundSize (n : BitVec 64) : BitVec 64 := ((if n = 0 then 1 else n) + 7#64) &&& ~~~7#64

def rounded (n : BitVec 64) : Nat := (n.toNat + 7) / 8 * 8

/-- What `grow_heap` asks for. -/
def growSize (minSize : BitVec 64) : BitVec 64 :=
  ((if 4096#64 < minSize + 24#64 then minSize + 24#64 + 4096#64 else 4096#64) + 0xFFF#64) &&&
    ~~~0xFFF#64

/-- `SYS_SBRK` with its result, or a failure. -/
def sbrk (sp : Space) (inc : BitVec 64) (granted : Bool) : Space × BitVec 64 :=
  if granted = false ∨ (0#64).slt inc ∧ sharedLibcBase < sp.programBreak + inc then (sp, -1#64)
  else (sp.sbrk inc, sp.programBreak)

def lastBlock (h : Arena) : (turns a : Nat) → Option Nat
  | 0, _ => none
  | turns + 1, a =>
    match (h a).next with
    | none => some a
    | some b => lastBlock h turns b

variable (u : User)

def User.turns : Nat := u.space.programBreak.toNat / headerSize + 1

/-- `grow_heap`. The outer `none` is a loop that does not end. -/
def growHeap (minSize : BitVec 64) (granted : Bool) : Option (User × Option Nat) :=
  let (space, mem) := sbrk u.space (growSize minSize) granted
  if mem.slt 0#64 then some ({u with space}, none)
  else
    let b := mem.toNat
    let h := Function.update u.arena b ⟨(growSize minSize - 24#64).toNat, true, none⟩
    match u.heapBase with
    | none => some (⟨h, some b, space⟩, some b)
    | some a =>
      (lastBlock h u.turns a).map fun c =>
        (⟨Function.update h c {h c with next := some b}, some a, space⟩, some b)

/-- The block has room for another one behind `size` bytes. -/
def roomy (h : Arena) (c : Nat) (size : BitVec 64) : Prop := (size + 40#64).toNat ≤ (h c).size

instance (h : Arena) (c : Nat) (size : BitVec 64) : Decidable (roomy h c size) := Nat.decLe ..

def takeBlock (h : Arena) (c : Nat) (size : BitVec 64) : Arena :=
  if roomy h c size then
    let n := (c + headerSize + size.toNat) % 2 ^ 64
    Function.update (Function.update h n ⟨(2 ^ 65 + (h c).size - size.toNat - headerSize) % 2 ^ 64, false,
      (h c).next⟩) c ⟨size.toNat, true, some n⟩
  else Function.update h c {h c with used := true}

/-- The first free block that is large enough. -/
def findFit (size : BitVec 64) (h : Arena) : (turns a : Nat) → Option (Option Nat)
  | 0, _ => none
  | turns + 1, a =>
    if (h a).used = false ∧ size.toNat ≤ (h a).size then some (some a)
    else
      match (h a).next with
      | none => some none
      | some b => findFit size h turns b

/-- A block for `size` bytes: a free one, or new memory. -/
def allocate (a : Nat) (size : BitVec 64) (granted : Bool) : Option (User × Option Nat) := do
  match ← findFit size u.arena u.turns a with
  | some c => return ({u with arena := takeBlock u.arena c size}, some (c + headerSize))
  | none =>
    match ← growHeap u size granted with
    | (u, none) => return (u, none)
    | (u, some b) => return ({u with arena := takeBlock u.arena b size}, some (b + headerSize))

/-- The first call obtains a block for the list to begin with, which nobody uses. -/
def malloc (n : BitVec 64) (first second : Bool) : Option (User × Option Nat) := do
  let size := roundSize n
  match u.heapBase with
  | some a => allocate u a size second
  | none =>
    match ← growHeap u size first with
    | (u, none) => return (u, none)
    | (u, some a) => allocate u a size second

def free (p : Nat) : User :=
  let h := heapFree u.arena p
  let c := p - headerSize
  match u.heapBase.bind (before h c u.turns) with
  | none => {u with arena := h}
  | some b => {u with arena := if (h b).used then h else absorb h b c}

/-! ### Runs -/

/-- The heap with its live allocations: each pointer with the size that was asked for. -/
structure Store where
  user : User
  live : List (Nat × BitVec 64)
  hung : Bool

inductive Op where
  | malloc (n : BitVec 64) (first second : Bool)
  | free (p : Nat)

namespace Store

def start (h : Arena) (sp : Space) : Store := ⟨⟨h, none, sp⟩, [], false⟩

def step (s : Store) : Op → Store
  | .malloc n first second =>
    match malloc s.user n first second with
    | none => {s with hung := true}
    | some (u, none) => {s with user := u}
    | some (u, some p) => {s with user := u, live := (p, n) :: s.live}
  | .free p => {s with user := free s.user p, live := s.live.filter (·.1 ≠ p)}

/-- Only live pointers are freed, and no size is so large that the sums with it wrap. -/
def Lawful (s : Store) : Op → Prop
  | .malloc n _ _ => n.toNat + 2 ^ 14 ≤ 2 ^ 63
  | .free p => p ∈ s.live.map Prod.fst

instance (s : Store) (op : Op) : Decidable (s.Lawful op) := by
  cases op <;> unfold Lawful <;> infer_instance

end Store

/-! ### Sizes -/

section
variable {n size : BitVec 64}

theorem toNat_roundSize (hn : n.toNat + 2 ^ 14 ≤ 2 ^ 63) :
    (roundSize n).toNat = (max n.toNat 1 + 7) / 8 * 8 := by
  have hone : (if n = 0 then 1 else n).toNat = max n.toNat 1 := by
    split
    case isTrue h => rw [h]; rfl
    case isFalse h =>
      have : n.toNat ≠ 0 := fun h0 => h (BitVec.eq_of_toNat_eq h0)
      omega
  rw [roundSize, show (7#64 : BitVec 64) = BitVec.ofNat 64 (2 ^ 3 - 1) from rfl, toNat_and_not_mask,
    BitVec.toNat_add, hone, show (BitVec.ofNat 64 (2 ^ 3 - 1)).toNat = 7 from rfl,
    Nat.mod_eq_of_lt (by omega)]
  norm_num

/-- The new block is large enough, and its size positive as a signed number. -/
theorem growSize_bounds (hs : size.toNat + 2 ^ 14 ≤ 2 ^ 63 + 8) :
    size.toNat + 24 ≤ (growSize size).toNat ∧ (growSize size).toNat < 2 ^ 63 ∧
      4096 ≤ (growSize size).toNat := by
  have h24 : (size + 24#64).toNat = size.toNat + 24 := by
    rw [BitVec.toNat_add, show (24#64).toNat = 24 from rfl, Nat.mod_eq_of_lt (by omega)]
  rw [growSize, toNat_and_not_low, BitVec.toNat_add, show (0xFFF#64).toNat = 4095 from rfl]
  split
  case isTrue h =>
    have hsum : (size + 24#64 + 4096#64).toNat = size.toNat + 24 + 4096 := by
      rw [BitVec.toNat_add, h24, show (4096#64).toNat = 4096 from rfl, Nat.mod_eq_of_lt (by omega)]
    rw [hsum]
    omega
  case isFalse h =>
    rw [BitVec.lt_def, h24, show (4096#64).toNat = 4096 from rfl] at h
    rw [show (4096#64).toNat = 4096 from rfl]
    omega

theorem sbrk_cases (sp : Space) {inc : BitVec 64} (granted : Bool) (hpos : 0 < inc.toNat)
    (hinc : inc.toNat < 2 ^ 63) (hsp : sp.programBreak.toNat < 2 ^ 63) :
    sbrk sp inc granted = (sp, -1#64) ∨ sp.programBreak.toNat + inc.toNat ≤ sharedLibcBase.toNat ∧
      sbrk sp inc granted = ({sp with programBreak := sp.programBreak + inc}, sp.programBreak) := by
  have hslt : (0#64).slt inc = true := by
    rw [BitVec.slt_iff_toInt_lt, BitVec.toInt_zero, BitVec.toInt_eq_toNat_of_lt (by omega)]
    omega
  have hneg : inc.slt 0#64 = false := by
    rw [Bool.eq_false_iff, ne_eq, BitVec.slt_iff_toInt_lt, BitVec.toInt_zero,
      BitVec.toInt_eq_toNat_of_lt (by omega)]
    omega
  rw [sbrk, Space.sbrk, hslt, hneg]
  split
  case isTrue => exact .inl rfl
  case isFalse h =>
    obtain ⟨-, hle⟩ := not_or.mp h
    have hlt : ¬ sharedLibcBase < sp.programBreak + inc := fun hlt => hle ⟨rfl, hlt⟩
    rw [if_neg Bool.false_ne_true, if_neg hlt]
    rw [BitVec.not_lt, BitVec.le_def, BitVec.toNat_add, Nat.mod_eq_of_lt (by omega)] at hlt
    exact .inr ⟨hlt, rfl⟩

end

/-! ### The loops over the list -/

section
variable {stop a b c turns : Nat} {h : Arena} {bs l r : List Nat}

theorem lastBlock_eq (hb : Filled stop h a (l ++ [c])) (hturns : l.length < turns) :
    lastBlock h turns a = some c := by
  induction l generalizing a turns with
  | nil =>
    obtain ⟨turns, rfl⟩ := Nat.exists_eq_add_one.mpr hturns
    obtain ⟨rfl, hnext, -⟩ := hb
    rw [lastBlock, show (h c).next = none from hnext]
  | cons d rest ih =>
    obtain ⟨turns, rfl⟩ := Nat.exists_eq_add_one.mpr (Nat.zero_lt_of_lt hturns)
    obtain ⟨rfl, hnext, hrest⟩ := hb
    have hlast := ih hrest (Nat.lt_of_succ_lt_succ hturns)
    have hhead : (rest.append [c]).head? = some (d + headerSize + (h d).size) := by
      cases rest with
      | nil => exact congrArg some hrest.1
      | cons e rest' => exact congrArg some hrest.1
    rw [lastBlock, show (h d).next = _ from hnext, hhead]
    exact hlast

/-- A block found before another one is in the list before it. -/
theorem before_sound (hb : Filled stop h a bs) (hfound : before h c turns a = some b)
    (hne : bs ≠ []) : ∃ l r, bs = l ++ b :: c :: r := by
  induction turns generalizing a bs with
  | zero => cases hfound
  | succ turns ih =>
    rcases bs with _ | ⟨d, rest⟩
    · exact absurd rfl hne
    obtain ⟨rfl, hnext, hrest⟩ := hb
    rw [before, show (h d).next = rest.head? from hnext] at hfound
    rcases rest with _ | ⟨e, rest⟩
    · cases hfound
    simp only [head?_cons] at hfound
    split at hfound
    case isTrue he => exact ⟨[], rest, by rw [← he, Option.some.inj hfound]; rfl⟩
    case isFalse =>
      have he : d + headerSize + (h d).size = e := hrest.1.symm
      obtain ⟨l, r, hlr⟩ := ih (show Filled stop h e (e :: rest) from ⟨rfl, he ▸ hrest.2⟩)
        hfound (cons_ne_nil _ _)
      exact ⟨d :: l, r, by rw [hlr]; rfl⟩

end

/-! ### Every run -/

/-- The blocks of the list fill the memory from the first break `a` to the break, no two free ones
in a row, and each live allocation has a used one. -/
structure Holds (u : User) (live : List (Nat × BitVec 64)) (a : Nat) (bs : List Nat) : Prop where
  low : u.space.programBreak.toNat < 2 ^ 63
  base : u.heapBase = bs.head?
  blocks : Filled u.space.programBreak.toNat u.arena a bs
  parted : Parted (usage u.arena bs)
  used : ∀ x ∈ live, ∃ b ∈ bs, x.1 = b + headerSize ∧ (u.arena b).used = true ∧
    rounded x.2 ≤ (u.arena b).size
  distinct : (live.map Prod.fst).Nodup

section
variable {u u' : User} {live : List (Nat × BitVec 64)} {a c : Nat} {bs : List Nat}
  {n size : BitVec 64}

section
variable (hs : Holds u live a bs)
include hs

theorem Holds.turns : bs.length < u.turns := by
  have := hs.blocks.length_le
  rw [User.turns, Nat.lt_succ_iff, Nat.le_div_iff_mul_le (by decide)]
  omega

theorem Holds.head {b : Nat} (hb : u.heapBase = some b) : b = a ∧ bs ≠ [] := by
  have hbase := hs.base.symm.trans hb
  have hblocks := hs.blocks
  rcases bs with _ | ⟨d, rest⟩
  · cases hbase
  · exact ⟨(Option.some.inj hbase).symm.trans hblocks.1, cons_ne_nil _ _⟩

theorem Holds.take (hn : n.toNat + 2 ^ 14 ≤ 2 ^ 63) (hc : c ∈ bs)
    (hnew : ∀ x ∈ live, x.1 ≠ c + headerSize)
    (hfree : (u.arena c).used = false ∨ ∃ l, bs = l ++ [c])
    (hsize : (roundSize n).toNat ≤ (u.arena c).size) :
    ∃ bs', Holds {u with arena := takeBlock u.arena c (roundSize n)} ((c + headerSize, n) :: live)
      a bs' := by
  have hround := toNat_roundSize hn
  have hlow := hs.low
  have hin := (hs.blocks.bounds.2 c hc).2
  have h40 : (roundSize n + 40#64).toNat = (roundSize n).toNat + 40 := by
    rw [BitVec.toNat_add, show (40#64).toNat = 40 from rfl, Nat.mod_eq_of_lt (by omega)]
  have htake : takeBlock u.arena c (roundSize n) = if roomy u.arena c (roundSize n) then
      cut u.arena c (roundSize n).toNat else update u.arena c {u.arena c with used := true} := by
    rw [takeBlock, Nat.mod_eq_of_lt (by simp only [headerSize] at hin ⊢; omega)]
    split
    case isFalse => rfl
    case isTrue hroom =>
      rw [roomy, h40] at hroom
      have hleft : (2 ^ 65 + (u.arena c).size - (roundSize n).toNat - headerSize) % 2 ^ 64 =
          (u.arena c).size - (roundSize n).toNat - headerSize := by
        simp only [headerSize] at hin ⊢
        omega
      rw [hleft]
      rfl
  obtain ⟨l, r, g, rfl, hb', hused, hfit, hkeep, hrest⟩ := taken_blocks
    (fun hroom => by rw [roomy, h40] at hroom; simp only [headerSize]; omega)
    hs.blocks hc hsize htake
  refine ⟨l ++ c :: (g ++ r), hs.low, ?_, hb', ?_, fun x hx => ?_, ?_⟩
  · have hbase := hs.base
    cases l <;> exact hbase
  · have hparted := hs.parted
    rw [show l ++ c :: r = l ++ c :: ([] ++ r) from rfl, usage_around fun _ _ => rfl] at hparted
    rw [usage_around hkeep, hused]
    refine hparted.take (hfree.imp_right fun hlast => ?_) hrest
    obtain ⟨l', hl'⟩ := hlast
    -- the block is the last one, so nothing is behind it
    rcases r.eq_nil_or_concat with rfl | ⟨r', d, rfl⟩
    · rfl
    have hlast := congrArg getLast? hl'
    simp only [getLast?_append, getLast?_cons, concat_eq_append] at hlast
    simp at hlast
    exact absurd hlast (Filled.other_ne hs.blocks (.inr (by simp)))
  · rcases mem_cons.mp hx with rfl | hx
    · exact ⟨c, by simp, rfl, hused, Nat.le_trans (by simp only [rounded]; omega) hfit⟩
    obtain ⟨b, hb, hat, hu, hle⟩ := hs.used x hx
    have hother := mem_other hb fun hbc => hnew x hx (hbc ▸ hat)
    rw [← hkeep b hother] at hu hle
    exact ⟨b, by simp only [mem_append, mem_cons]; tauto, hat, hu, hle⟩
  · rw [map_cons, nodup_cons]
    refine ⟨fun hin => ?_, hs.distinct⟩
    obtain ⟨x, hx, hxc⟩ := mem_map.mp hin
    exact hnew x hx hxc

/-- `grow_heap` fails, or puts a block at the old break, behind all others. -/
theorem Holds.grow (hsize : size.toNat + 2 ^ 14 ≤ 2 ^ 63 + 8) (granted : Bool) :
    growHeap u size granted = some (u, none) ∨
      ∃ u' b, growHeap u size granted = some (u', some b) ∧ Holds u' live a (bs ++ [b]) ∧
        b ∉ bs ∧ size.toNat ≤ (u'.arena b).size ∧
        u.space.programBreak.toNat ≤ u'.space.programBreak.toNat := by
  obtain ⟨hroom, hpos, hmin⟩ := growSize_bounds hsize
  have hlow := hs.low
  have hlibc : sharedLibcBase.toNat = 0x30000000 := by decide
  rcases sbrk_cases u.space granted (Nat.lt_of_lt_of_le (by decide) hmin) hpos (by omega) with
    hfail | ⟨hle, hgrant⟩
  · left
    rw [growHeap, hfail]
    rfl
  right
  have hneg : u.space.programBreak.slt 0#64 = false := by
    rw [Bool.eq_false_iff, ne_eq, BitVec.slt_iff_toInt_lt, BitVec.toInt_zero,
      BitVec.toInt_eq_toNat_of_lt (by omega)]
    omega
  have hbrk : (u.space.programBreak + growSize size).toNat =
      u.space.programBreak.toNat + (growSize size).toNat := by
    rw [BitVec.toNat_add, Nat.mod_eq_of_lt (by omega)]
  have h24 : (growSize size - 24#64).toNat = (growSize size).toNat - 24 := by
    rw [BitVec.toNat_sub_of_le (BitVec.le_def.mpr (by rw [show (24#64).toNat = 24 from rfl]; omega))]
    rfl
  generalize hstop : u.space.programBreak.toNat = stop at *
  have hblocks : Filled stop u.arena a bs := hstop ▸ hs.blocks
  have hbelow (b : Nat) (hb : b ∈ bs) : b ≠ stop := by
    have := (hblocks.bounds.2 b hb).2
    simp only [headerSize] at this
    omega
  generalize hnew : update u.arena stop ⟨(growSize size - 24#64).toNat, true, none⟩ = h
  have hself : h stop = ⟨(growSize size).toNat - 24, true, none⟩ := by
    rw [← hnew, update_self, h24]
  have hfits : size.toNat ≤ (h stop).size := by
    rw [hself]
    exact Nat.le_sub_of_add_le hroom
  have hend : stop + headerSize + (h stop).size = stop + (growSize size).toNat := by
    rw [hself, headerSize]
    exact (Nat.add_assoc ..).trans (congrArg _ (Nat.add_sub_cancel' (by omega)))
  have hsame (b : Nat) (hb : b ∈ bs) : h b = u.arena b := by
    rw [← hnew, update_of_ne (hbelow b hb)]
  rw [growHeap, hgrant]
  simp only [hneg, Bool.false_eq_true, if_false, hstop, hnew]
  rcases bs.eq_nil_or_concat with rfl | ⟨l, c, rfl⟩
  · have hnone : u.heapBase = none := hs.base
    obtain rfl : a = stop := hblocks
    rw [hnone]
    refine ⟨_, a, rfl, ⟨by rw [hbrk]; omega, rfl, ⟨rfl, congrArg Block.next hself, ?_⟩, .singleton _,
      fun x hx => ?_, hs.distinct⟩, not_mem_nil, hfits, by rw [hbrk]; omega⟩
    · exact hend.trans hbrk.symm
    · obtain ⟨b, hb, -⟩ := hs.used x hx
      cases hb
  · rw [concat_eq_append] at *
    have hbase : u.heapBase = some a := by
      rw [hs.base]
      cases l with
      | nil => exact congrArg some hblocks.1
      | cons d rest => exact congrArg some hblocks.1
    have hfilled : Filled stop h a (l ++ [c]) :=
      hblocks.congr (fun b hb => by rw [hsame b hb]) fun b hb => by rw [hsame b hb]
    have hlast : lastBlock h u.turns a = some c := by
      have hturns := hs.turns
      rw [length_append] at hturns
      exact lastBlock_eq hfilled (by omega)
    rw [hbase]
    simp only [hlast, Option.map_some]
    have hcs : c ≠ stop := hbelow c (by simp)
    generalize hlink : update h c {h c with next := some stop} = h'
    have hstop' : h' stop = h stop := by rw [← hlink, update_of_ne hcs.symm]
    have hfields (b : Nat) (hb : b ∈ l ++ [c]) :
        (h' b).used = (u.arena b).used ∧ (h' b).size = (u.arena b).size := by
      rw [← hlink, ← hsame b hb]
      by_cases hbc : b = c <;> simp [hbc]
    have hfilled' : Filled (stop + (growSize size).toNat) h' a (l ++ [c, stop]) := by
      refine hfilled.concat (fun b hb => ?_) (fun b hb => ?_) ?_ ?_ ?_
      · rw [(hfields b hb).2, hsame b hb]
      · rw [← hlink, update_of_ne (Filled.other_ne hfilled (.inl hb))]
      · rw [← hlink, update_self]
      · rw [hstop', hself]
      · rw [hstop', hend]
    rw [← hstop'] at hfits
    refine ⟨_, stop, rfl, ⟨by rw [hbrk]; omega, ?_, ?_, ?_, fun x hx => ?_, hs.distinct⟩,
      fun hin => hbelow stop hin rfl, hfits, by rw [hbrk]; omega⟩
    · rw [← hbase, hs.base]
      cases l <;> rfl
    · rw [append_assoc, hbrk]
      exact hfilled'
    · have husage : usage h' (l ++ [c] ++ [stop]) = usage u.arena (l ++ [c]) ++ [true] := by
        rw [usage, usage, map_append, map_singleton, hstop', hself,
          map_congr_left fun b hb => (hfields b hb).1]
      exact husage ▸ hs.parted.concat
    · obtain ⟨b, hb, hat, hu, hfit⟩ := hs.used x hx
      exact ⟨b, mem_append_left _ hb, hat, (hfields b hb).1.trans hu,
        hfit.trans (hfields b hb).2.ge⟩

theorem mem_live_ne {b : Nat} (hb : b ∉ bs ∨ (u.arena b).used = false) :
    ∀ x ∈ live, x.1 ≠ b + headerSize := by
  intro x hx hxb
  obtain ⟨d, hd, hat, hu, -⟩ := hs.used x hx
  obtain rfl : d = b := Nat.add_right_cancel (hat.symm.trans hxb)
  rcases hb with hb | hb
  · exact hb hd
  · exact Bool.false_ne_true (hb.symm.trans hu)

end

def withResult (r : Option Nat) (n : BitVec 64) (live : List (Nat × BitVec 64)) :
    List (Nat × BitVec 64) := (r.map fun p => (p, n)).toList ++ live

theorem Holds.allocate (hs : Holds u live a bs) (hne : bs ≠ []) (hn : n.toNat + 2 ^ 14 ≤ 2 ^ 63)
    (granted : Bool) : ∃ u' r bs', allocate u a (roundSize n) granted = some (u', r) ∧
      Holds u' (withResult r n live) a bs' ∧
      u.space.programBreak.toNat ≤ u'.space.programBreak.toNat := by
  have hround := toNat_roundSize hn
  rw [Malloc.allocate]
  rcases Heap.walk_cases (w := findFit (roundSize n) u.arena) (fun _ _ => rfl) hs.blocks
    hne hs.turns.le with hnone | ⟨c, hc, ⟨hfree, hfit⟩, heq⟩
  · rw [hnone]
    have hsize : (roundSize n).toNat + 2 ^ 14 ≤ 2 ^ 63 + 8 := by omega
    rcases hs.grow hsize granted with hfail | hgrown
    · exact ⟨u, none, bs, by simp [hfail], hs, Nat.le_refl _⟩
    obtain ⟨u', b, hgrow, hs', hb, hfit, hle⟩ := hgrown
    obtain ⟨bs', hs''⟩ := hs'.take hn (by simp) (mem_live_ne hs (.inl hb)) (.inr ⟨bs, rfl⟩) hfit
    exact ⟨_, some (b + headerSize), bs', by simp [hgrow], hs'', hle⟩
  · rw [heq]
    obtain ⟨bs', hs'⟩ := hs.take hn hc (mem_live_ne hs (.inr hfree)) (.inl hfree) hfit
    exact ⟨_, some (c + headerSize), bs', rfl, hs', Nat.le_refl _⟩

theorem Holds.malloc (hs : Holds u live a bs) (hn : n.toNat + 2 ^ 14 ≤ 2 ^ 63)
    (first second : Bool) : ∃ u' r bs', malloc u n first second = some (u', r) ∧
      Holds u' (withResult r n live) a bs' ∧
      u.space.programBreak.toNat ≤ u'.space.programBreak.toNat := by
  rw [Malloc.malloc]
  cases hbase : u.heapBase with
  | some b =>
    obtain ⟨rfl, hne⟩ := hs.head hbase
    exact hs.allocate hne hn second
  | none =>
    have hround := toNat_roundSize hn
    have hsize : (roundSize n).toNat + 2 ^ 14 ≤ 2 ^ 63 + 8 := by omega
    rcases hs.grow hsize first with hfail | hgrown
    · exact ⟨u, none, bs, by simp [hfail], hs, Nat.le_refl _⟩
    obtain ⟨u', b, hgrow, hs', -, -, hle⟩ := hgrown
    have hbs : bs = [] := by
      have := hs.base.symm.trans hbase
      cases bs with
      | nil => rfl
      | cons d rest => cases this
    subst hbs
    obtain rfl : b = a := hs'.blocks.1
    obtain ⟨u'', r, bs', heq, hs'', hle'⟩ := hs'.allocate (cons_ne_nil _ _) hn second
    exact ⟨u'', r, bs', by simp [hgrow, heq], hs'', hle.trans hle'⟩

theorem Holds.freed (hs : Holds u live a bs) {p : Nat} {h : Arena} {bs' : List Nat}
    (hbase : bs'.head? = bs.head?) (hb : Filled u.space.programBreak.toNat h a bs')
    (hparted : Parted (usage h bs')) (hkeep : ∀ b ∈ bs, b + headerSize ≠ p →
      (u.arena b).used = true → b ∈ bs' ∧ h b = u.arena b) :
    Holds {u with arena := h} (live.filter (·.1 ≠ p)) a bs' := by
  refine ⟨hs.low, hs.base.trans hbase.symm, hb, hparted, fun y hy => ?_,
    hs.distinct.sublist (filter_sublist.map _)⟩
  obtain ⟨hy, hne⟩ := mem_filter.mp hy
  obtain ⟨b, hb, hat, hu, hle⟩ := hs.used y hy
  obtain ⟨hb', hsame⟩ := hkeep b hb (by simpa [hat] using hne) hu
  rw [← hsame] at hu hle
  exact ⟨b, hb', hat, hu, hle⟩

/-- The block is freed with a free one behind it, and a free one before it takes both in. -/
theorem Holds.free (hs : Holds u live a bs) {p : Nat} (hp : p ∈ live.map Prod.fst) :
    ∃ bs', Holds (free u p) (live.filter (·.1 ≠ p)) a bs' := by
  obtain ⟨x, hx, rfl⟩ := mem_map.mp hp
  obtain ⟨c, hc, hat, hcused, -⟩ := hs.used x hx
  have hbase : u.heapBase = some a := by
    rw [hs.base]
    have hblocks := hs.blocks
    cases bs with
    | nil => cases hc
    | cons d rest => exact congrArg some hblocks.1
  have hlen := hs.turns
  obtain ⟨l, r, g, rfl, hb', hfree, hkeep, hgone⟩ := heapFree_blocks hs.blocks hc
  have hparted := hs.parted
  rw [usage_around fun _ _ => rfl, hcused] at hparted
  have hbind (h : Arena) : u.heapBase.bind (before h c u.turns) =
      before h c u.turns a := by rw [hbase, Option.bind_some]
  rw [Malloc.free, hat, Nat.add_sub_cancel, hbind]
  generalize heapFree u.arena (c + headerSize) = h at hb' hfree hkeep ⊢
  have hother (b : Nat) (hb : b ∈ l ++ c :: (g ++ r)) (hne : b + headerSize ≠ c + headerSize)
      (hu : (u.arena b).used = true) : b ∈ l ∨ b ∈ r :=
    (mem_other hb fun hbc => hne (by rw [hbc])).imp_right fun hb =>
      (mem_append.mp hb).resolve_left (not_mem_gone hgone hu)
  have husage : usage h (l ++ c :: r) = usage u.arena l ++ false :: usage u.arena r := by
    rw [show l ++ c :: r = l ++ c :: ([] ++ r) from rfl, usage_around hkeep, hfree]
    rfl
  -- with a used block before it, or none, `c` stays
  have hstay (hl : ∀ v ∈ (usage u.arena l).getLast?, v = true) :
      ∃ bs', Holds {u with arena := h} (live.filter (·.1 ≠ c + headerSize)) a bs' := by
    refine ⟨l ++ c :: r, hs.freed (by cases l <;> rfl) hb' (husage ▸ hparted.free hl hgone)
      fun b hb hne hu => ?_⟩
    have hin := hother b hb hne hu
    exact ⟨by simp only [mem_append, mem_cons]; tauto, hkeep b hin⟩
  rcases l.eq_nil_or_concat with rfl | ⟨l, b, rfl⟩
  · have hnone : before h c u.turns a = none := by
      refine Option.eq_none_iff_forall_ne_some.mpr fun b hfound => ?_
      obtain ⟨l, r', hlr⟩ := before_sound hb' hfound (cons_ne_nil _ _)
      have hin : c ∈ r := by
        cases l with
        | nil => exact (cons.inj hlr).2 ▸ mem_cons_self
        | cons d l => exact (cons.inj hlr).2 ▸ by simp
      exact hb'.other_ne (.inr hin) rfl
    rw [hnone]
    exact hstay fun v hv => by cases hv
  · rw [concat_eq_append] at *
    rw [append_assoc, singleton_append] at hb'
    have hfound : before h c u.turns a = some b := by
      refine before_eq hb' ?_
      simp only [length_append] at hlen
      omega
    simp only [hfound]
    have hb : h b = u.arena b := hkeep b (.inl (by simp))
    split
    case isTrue hu =>
      refine hstay fun v hv => ?_
      simp only [usage, map_append, map_singleton, getLast?_concat] at hv
      rw [← Option.some.inj hv, ← hb, hu]
    case isFalse hu =>
      rw [Bool.not_eq_true] at hu
      obtain ⟨hb'', hsame⟩ := hb'.absorb
      have hsplit : usage u.arena (l ++ [b]) = usage u.arena l ++ [false] := by
        simp [usage, ← hb, hu]
      rw [hsplit, append_assoc, singleton_append] at hparted
      obtain ⟨hleft, hlast⟩ := hparted.leave
      have hkept (d : Nat) (hd : d ∈ l ∨ d ∈ r) : absorb h b c d = u.arena d :=
        (hsame d hd).trans (hkeep d (hd.imp_left (mem_append_left _)))
      refine ⟨l ++ b :: r, hs.freed (by cases l <;> rfl) hb'' ?_ fun d hd hne hdu => ?_⟩
      · have hbfree : (absorb h b c b).used = false := by rw [absorb, update_self]
        rw [show l ++ b :: r = l ++ b :: ([] ++ r) from rfl, usage_around hkept, hbfree]
        exact hleft.free hlast hgone
      · have hdb : d ≠ b := fun hdb => by rw [hdb, ← hb, hu] at hdu; cases hdu
        have hin : d ∈ l ∨ d ∈ r := (hother d hd hne hdu).imp_left fun hd => by simpa [hdb] using hd
        exact ⟨by simp only [mem_append, mem_cons]; tauto, hkept d hin⟩

end

namespace Store
variable {s : Store} {h : Arena} {sp : Space} {a : Nat} {bs : List Nat} {op : Op}

theorem holds_step (hlaw : s.Lawful op) (hs : s.hung = false ∧ ∃ bs, Holds s.user s.live a bs) :
    (s.step op).hung = false ∧ ∃ bs, Holds (s.step op).user (s.step op).live a bs := by
  obtain ⟨hung, bs, hs⟩ := hs
  cases op with
  | free p => exact ⟨hung, hs.free hlaw⟩
  | malloc n first second =>
    obtain ⟨u, r, bs', heq, hs', -⟩ := hs.malloc hlaw first second
    rw [step, heq]
    cases r <;> exact ⟨hung, bs', hs'⟩

theorem holds_run (hsp : sp.programBreak.toNat < 2 ^ 63) {ops : List Op}
    (hops : Admissible step Lawful (start h sp) ops) :
    (run step (start h sp) ops).hung = false ∧
      ∃ bs, Holds (run step (start h sp) ops).user (run step (start h sp) ops).live
        sp.programBreak.toNat bs := by
  refine run_invariant (P := fun s => s.hung = false ∧
      ∃ bs, Holds s.user s.live sp.programBreak.toNat bs)
    (fun s op hs hlaw => holds_step hlaw hs) _ ops ⟨rfl, [], ?_⟩ hops
  exact ⟨hsp, rfl, rfl, .nil, fun x hx => (by cases hx), .nil⟩

def Small (s : Store) : Op → Prop
  | .malloc n _ _ => n.toNat < 2 ^ 31
  | .free p => p ∈ s.live.map Prod.fst

instance (s : Store) (op : Op) : Decidable (s.Small op) := by
  cases op <;> unfold Small <;> infer_instance

/-- The integrity of a program's heap. The blocks fill the memory obtained, from the first break to
the break, in the order of their addresses and no two free ones in a row; every live allocation is
a used block of at least the size asked for, rounded up; no two of them have a byte in common, and
none has one in common with a header. -/
theorem malloc_integrity (h : Arena) (sp : Space) (hsp : sp.programBreak.toNat < 2 ^ 63)
    (ops : List Op) (hops : Admissible step Small (start h sp) ops) :
    ∃ bs, (run step (start h sp) ops).hung = false ∧
      (run step (start h sp) ops).user.heapBase = bs.head? ∧
      Filled (run step (start h sp) ops).user.space.programBreak.toNat
        (run step (start h sp) ops).user.arena sp.programBreak.toNat bs ∧
      Parted (usage (run step (start h sp) ops).user.arena bs) ∧
      (∀ x ∈ (run step (start h sp) ops).live, (∃ b ∈ bs, x.1 = b + headerSize ∧
          ((run step (start h sp) ops).user.arena b).used = true ∧
          rounded x.2 ≤ ((run step (start h sp) ops).user.arena b).size) ∧
        ∀ b ∈ bs, Heap.Store.Clear x.1 (rounded x.2) b headerSize) ∧
      (run step (start h sp) ops).live.Pairwise fun x y =>
        Heap.Store.Clear x.1 (rounded x.2) y.1 (rounded y.2) := by
  have hlaw : Admissible step Lawful (start h sp) ops := by
    refine Admissible.mono (fun s op hop => ?_) _ ops hops
    cases op with
    | malloc n first second =>
      exact Nat.le_trans (Nat.add_le_add_right (Nat.le_of_lt hop) _) (by decide)
    | free p => exact hop
  obtain ⟨hung, bs, hs⟩ := holds_run hsp hlaw
  refine ⟨bs, hung, hs.base, hs.blocks, hs.parted, fun x hx => ⟨hs.used x hx, fun c hc => ?_⟩,
    (List.pairwise_map.mp hs.distinct).imp_of_mem fun hx hy hne => ?_⟩
  · obtain ⟨b, hb, hat, -, hle⟩ := hs.used x hx
    exact hat ▸ clear_header hs.blocks hb hc hle
  obtain ⟨b, hb, hxat, -, hxle⟩ := hs.used _ hx
  obtain ⟨c, hc, hyat, -, hyle⟩ := hs.used _ hy
  rw [hxat, hyat] at hne ⊢
  exact clear_block hs.blocks hb hc hxle hyle (by omega)

/-- A program with its break at 4 MiB makes two allocations, frees the first and makes a smaller one
in its place; the third `sbrk` fails. -/
theorem malloc_integrity_reuse :
    (run step (start (fun _ => ⟨0, false, none⟩) (.image 0x400000#64)) [.malloc 100 true true,
      .malloc 3000 true true, .malloc 9000 true false, .free 0x401018, .malloc 40 true true]).live =
        [(0x401018, 40), (0x401098, 3000)] ∧
    ∃ bs, Parted (usage (run step (start (fun _ => ⟨0, false, none⟩) (.image 0x400000#64))
      [.malloc 100 true true, .malloc 3000 true true, .malloc 9000 true false, .free 0x401018,
        .malloc 40 true true]).user.arena bs) := by
  refine ⟨by decide +kernel, ?_⟩
  obtain ⟨bs, -, -, -, hparted, -⟩ := malloc_integrity (fun _ => ⟨0, false, none⟩)
    (.image 0x400000#64) (by decide) [.malloc 100 true true, .malloc 3000 true true,
      .malloc 9000 true false, .free 0x401018, .malloc 40 true true] (by decide +kernel)
  exact ⟨bs, hparted⟩

/-- `malloc` keeps its promises for sizes whose sums do not wrap. It returns NULL or a used block
below the break, with the bytes asked for and none in common with a live allocation, and does not
lower the break. -/
theorem malloc_promises (h : Arena) (sp : Space) (hsp : sp.programBreak.toNat < 2 ^ 63)
    (ops : List Op) (hops : Admissible step Lawful (start h sp) ops) (n : BitVec 64)
    (hn : n.toNat + 2 ^ 14 ≤ 2 ^ 63) (first second : Bool) :
    ∃ u r, malloc (run step (start h sp) ops).user n first second = some (u, r) ∧
      (run step (start h sp) ops).user.space.programBreak.toNat ≤ u.space.programBreak.toNat ∧
      ∀ p ∈ r, ∃ b, p = b + headerSize ∧ (u.arena b).used = true ∧ n.toNat ≤ (u.arena b).size ∧
        p + (u.arena b).size ≤ u.space.programBreak.toNat ∧
        ∀ x ∈ (run step (start h sp) ops).live,
          Heap.Store.Clear p (u.arena b).size x.1 x.2.toNat := by
  obtain ⟨-, bs, hs⟩ := holds_run hsp hops
  obtain ⟨u, r, bs', heq, hs', hle⟩ := hs.malloc hn first second
  refine ⟨u, r, heq, hle, fun p hp => ?_⟩
  obtain rfl : r = some p := hp
  have hdistinct := (List.nodup_cons.mp hs'.distinct).1
  obtain ⟨b, hb, rfl, hused, hfit⟩ := hs'.used (p, n) (.head _)
  have hle (m : BitVec 64) : m.toNat ≤ rounded m := by
    rw [rounded]
    omega
  refine ⟨b, rfl, hused, (hle n).trans hfit, (hs'.blocks.bounds.2 b hb).2, fun x hx => ?_⟩
  obtain ⟨c, hc, hat, -, hfit'⟩ := hs'.used x (.tail _ hx)
  rw [hat]
  refine clear_block hs'.blocks hb hc (Nat.le_refl _) ((hle _).trans hfit') ?_
  rintro rfl
  exact hdistinct (List.mem_map.mpr ⟨x, hx, hat⟩)

theorem malloc_promises_large :
    ∃ u r, malloc (run step (start (fun _ => ⟨0, false, none⟩) (.image 0x400000#64))
        [.malloc 100 true true]).user 0x4000000000000000#64 true true = some (u, r) ∧
      0x402000 ≤ u.space.programBreak.toNat := by
  obtain ⟨u, r, heq, hle, -⟩ := malloc_promises (fun _ => ⟨0, false, none⟩) (.image 0x400000#64)
    (by decide) [.malloc 100 true true] (by decide +kernel) 0x4000000000000000#64
    (by decide) true true
  exact ⟨u, r, heq, Nat.le_trans (by decide +kernel) hle⟩

/-- The largest size is rounded up to 0, and `malloc` returns a block without a byte. With 2⁶³ bytes
`grow_heap` hands `sbrk` a negative number: the break goes back to where it began. -/
theorem malloc_wraps :
    ((malloc (start (fun _ => ⟨0, false, none⟩) (.image 0x400000#64)).user 0xFFFFFFFFFFFFFFFF#64 true true).map
      fun x => (x.2, (x.1.arena 0x401000).size)) = some (some (0x401000 + headerSize), 0) ∧
    (run step (start (fun _ => ⟨0, false, none⟩) (.image 0x400000#64))
      [.malloc 100 true true]).user.space.programBreak = 0x402000#64 ∧
    ((malloc (run step (start (fun _ => ⟨0, false, none⟩) (.image 0x400000#64))
      [.malloc 100 true true]).user 0x8000000000000000#64 true true).map
        fun x => x.1.space.programBreak) = some 0x400000#64 := by
  decide +kernel

end Store

end Nyx.Malloc
