import Nyx.Paging.Fault
import Nyx.Paging.Radix

/-! What `vm_handle_fault` has done when it returns, for every fault: from ring 3 or from the
kernel, with and without a process, and with `alloc_page` failing at any of its calls.

A fault is about the page tables below the entry of the page directory that its address selects;
they are a `Tree`. The handler then says truly that the page is there, but for one case:
`map_pml4` does not report that it got no memory for a table, and the heap and stack paths take the
page for mapped. So a fault on these is resolved only if there is memory for the page and for the
tables it lacks (`grants`, `lacking`). -/
namespace Nyx.Paging
open Machine Vpn
open Process (userSpaceMin userSpaceEnd)
open Process.Kernel (pageFloor)
open Lib

/-- What the handler reads of the running process: its page directory, and the heap window and
the mmap table of its thread group's leader. -/
structure Running where
  pageDirectory : Ptr
  space : Space

/-- The process whose address space the fault is in: a fault from ring 3 belongs to the running
process, if that has a page directory. -/
def faultProcess (p : Option Running) (err : BitVec 64) : Option Running :=
  p.filter fun r => has err 4#64 && r.pageDirectory != 0#64

def faultPml4 (currentPml4 : Ptr) (p : Option Running) (err : BitVec 64) : Ptr :=
  match faultProcess p err with
  | some r => r.pageDirectory
  | none => currentPml4

namespace Machine

variable (m : Machine) (pml4 : Ptr)

/-- The end of `vm_handle_fault`, from its own call of `pte_ptr` on: a page marked for demand
paging, or a write to a copy-on-write page. -/
def faultLeaf (cr2 err : BitVec 64) : Machine × Bool :=
  match m.ptePtr pml4 cr2 false with
  | (m, none) => (m, false)
  | (m, some (pt, i)) =>
    let e := m.word pt i
    let absent := !has err 1#64
    if absent && has e pteDemand then
      let (m, page) := m.allocPage
      if page = 0#64 then (m, false)
      else
        ((m.zeroPage page).store pt i (frameOf page ||| pagePresent ||| pageWritable |||
          e &&& pageUser ||| e &&& pageNx), true)
    else if !absent && has err 2#64 && has e pagePresent && has e pteCow then
      m.copyOnWrite pt i
    else (m, false)

/-- `vm_handle_fault` for any fault. Only the running process's own address space has a heap, mmap
regions and a stack to serve (`vmHandleFault`). -/
def vmHandleAnyFault (currentPml4 : Ptr) (p : Option Running) (cr2 err : BitVec 64) :
    Machine × Bool :=
  match faultProcess p err with
  | some r => m.vmHandleFault r.pageDirectory r.space cr2 err
  | none =>
    if currentPml4 = 0#64 then (m, false)
    else if has err 4#64 && p.isSome && (userStackLow - 0x1000#64 ≤ cr2 && cr2 < userStackLow) then
      (m, false)
    else m.faultLeaf currentPml4 cr2 err

/-- The fault is one of the heap or the stack, for which a zeroed page is mapped. -/
def zeroFills (sp : Space) (cr2 err : BitVec 64) : Bool :=
  !has err 1#64 && (userSpaceMin ≤ sp.heapStart && sp.heapStart < sp.programBreak &&
      sp.heapStart ≤ cr2 && cr2 < sp.programBreak ||
    (sp.vmaFind cr2).isNone && (userStackLow ≤ cr2 && cr2 < userStackTop + 0x1000#64))

theorem vmHandleFault_cases (sp : Space) (cr2 err : BitVec 64) :
    zeroFills sp cr2 err = true ∧ m.vmHandleFault pml4 sp cr2 err = m.demandZero pml4 cr2 ∧
        has err 1#64 = false ∧ (cr2 < sp.programBreak ∨ cr2 < userStackTop + 0x1000#64) ∨
      zeroFills sp cr2 err = false ∧
        ((∃ v, m.vmHandleFault pml4 sp cr2 err = m.demandRegion pml4 v cr2 ∧ has err 1#64 = false) ∨
          m.vmHandleFault pml4 sp cr2 err = (m, false) ∨
          m.vmHandleFault pml4 sp cr2 err = m.faultLeaf pml4 cr2 err) := by
  unfold vmHandleFault
  dsimp only
  split
  case isTrue hheap =>
    refine .inl ⟨?_, rfl, ?_⟩
    · rw [zeroFills, Bool.and_or_distrib_left, hheap, Bool.true_or]
    simp only [Bool.and_eq_true, Bool.not_eq_true', decide_eq_true_eq] at hheap
    exact ⟨hheap.1, .inl hheap.2.2⟩
  case isFalse hheap =>
    rw [zeroFills, Bool.and_or_distrib_left, Bool.eq_false_iff.mpr hheap, Bool.false_or]
    split
    case h_1 v hv =>
      split at hv
      case isTrue habsent =>
        rw [habsent, hv]
        exact .inr ⟨rfl, .inl ⟨v, rfl, by simpa using habsent⟩⟩
      case isFalse => exact nomatch hv
    case h_2 hnone =>
      split
      case isTrue hstack =>
        refine .inl ⟨?_, rfl, ?_⟩
        · rw [Bool.and_eq_true] at hstack
          rw [if_pos hstack.1] at hnone
          rw [hnone, hstack.1, hstack.2]
          rfl
        simp only [Bool.and_eq_true, Bool.not_eq_true', decide_eq_true_eq] at hstack
        exact ⟨hstack.1, .inr hstack.2.2⟩
      case isFalse hstack =>
        refine .inr ⟨?_, .inr ?_⟩
        · rw [Bool.and_left_comm, Bool.eq_false_iff.mpr hstack, Bool.and_false]
        split
        · exact .inl rfl
        · exact .inr rfl

/-- The next `n` calls of `alloc_page` find a frame. -/
def grants : Nat → Machine → Bool
  | 0, _ => true
  | n + 1, m => m.allocPage.2 != 0#64 && grants n m.allocPage.1

def lacking (half : BitVec 9 → Bool) : (path is : List (BitVec 9)) → Nat
  | _, [] => 0
  | path, i :: rest =>
    if (m.tableAt half pml4 (i :: path)).isSome then lacking half (i :: path) rest
    else rest.length + 1

theorem grants_congr {m m' : Machine} (hf : m'.frames = m.frames)
    (he : m'.exhausted = m.exhausted) (hc : m'.allocCalls = m.allocCalls) (n : Nat) :
    grants n m' = grants n m := by
  induction n generalizing m m' with
  | zero => rfl
  | succ n ih =>
    have hsame : m'.allocPage.2 = m.allocPage.2 ∧ m'.allocPage.1.frames = m.allocPage.1.frames ∧
        m'.allocPage.1.exhausted = m.allocPage.1.exhausted ∧
        m'.allocPage.1.allocCalls = m.allocPage.1.allocCalls := by
      simp only [allocPage, hf, he, hc]
      split <;> exact ⟨rfl, rfl, rfl, rfl⟩
    rw [grants, grants, hsame.1, ih hsame.2.1 hsame.2.2.1 hsame.2.2.2]

theorem lacking_congr {m m' : Machine} {half : BitVec 9 → Bool}
    (h : m'.tableAt half pml4 = m.tableAt half pml4) (path is : List (BitVec 9)) :
    m'.lacking pml4 half path is = m.lacking pml4 half path is := by
  induction is generalizing path with
  | nil => rfl
  | cons i rest ih => rw [lacking, lacking, h, ih]

theorem fill_fill {p : Ptr} {page page' : BitVec 9 → BitVec 64} {m : Machine} :
    (m.fill p page).fill p page' = m.fill p page' := by
  simp [fill]

def LeafHas (virt flag : BitVec 64) : Prop :=
  ∃ t i, m.ptePtr pml4 virt false = (m, some (t, i)) ∧ has (m.word t i) flag = true

end Machine

/-- The entry of the page directory that an address selects. -/
def slotOf (virt : BitVec 64) (i : BitVec 9) : Bool := i == index virt 39

/-- An entry on the way to a page. Below the end of user space a process's own address space has
no huge pages. -/
def FaultTable (own : Bool) (cr2 e : BitVec 64) : Prop :=
  CleanTable e ∧ (own = true → cr2 < userSpaceEnd → has e pageHuge = false)

/-- What the result of the handler has to mean. -/
structure Served (half : BitVec 9 → Bool) (m : Machine) (pml4 : Ptr) (cr2 err : BitVec 64)
    (r : Machine × Bool) : Prop where
  present : r.2 = true → r.1.LeafHas pml4 cr2 pagePresent
  writable : r.2 = true → has err 1#64 = true → r.1.LeafHas pml4 cr2 pageWritable
  installed : r.2 = false → ∀ f, IsFrame f → m.refs f = 0 → r.1.refs f ≠ 0 →
    ∃ path, r.1.tableAt half pml4 path = some f

section
variable {half : BitVec 9 → Bool} {ok : BitVec 64 → Prop} {m m' m'' : Machine} {pml4 t q : Ptr}
  {cr2 err : BitVec 64} {own : Bool}

theorem slotOf_self (virt : BitVec 64) : slotOf virt (index virt 39) = true := by
  rw [slotOf, beq_self_eq_true]

theorem FaultTable.link (hq : IsFrame q) : FaultTable own cr2 (link q) := by
  refine ⟨fun _ => (link_mask hq).trans (frameOf_link hq).symm, fun _ _ => ?_⟩
  rw [has_link hq (by decide)]
  decide

/-- Nothing changed, or nothing but the number of failed allocations. -/
theorem Served.refused (hf : m'.frames = m.frames) : Served half m pml4 cr2 err (m', false) where
  present hx := nomatch hx
  writable hx := nomatch hx
  installed _ f _ h0 hne := by
    rw [Machine.refs, refcount, hf] at hne
    exact absurd h0 hne

theorem Tree.leafHas (hclean : ∀ e, ok e → CleanTable e) (h : Tree half ok m pml4)
    (ht : m.tableAt half pml4 (of cr2).table = some t) (hw : m'.word = m.word)
    {flag : BitVec 64} (hflag : has (m.word t (index cr2 12)) flag = true) :
    m'.LeafHas pml4 cr2 flag := ⟨t, index cr2 12, h.ptePtr_eq hclean hw ht, by rw [hw]; exact hflag⟩

theorem Tree.newPage (hclean : ∀ e, ok e → CleanTable e) (h : Tree half ok m pml4)
    (ht : m.tableAt half pml4 (of cr2).table = some t) (hq : m.Took m' q)
    (page : BitVec 9 → BitVec 64) {e flag : BitVec 64} (hflag : has e flag = true)
    (hw : m''.word = ((m'.fill q page).store t (index cr2 12) e).word) :
    m''.LeafHas pml4 cr2 flag := by
  obtain ⟨htree, hat, -⟩ := h.takePage hq page
  rw [← hat] at ht
  have hstored := htree.storeLeaf (v := of cr2) ht e
  refine hstored.leafHas hclean (t := t) ?_ hw ?_
  · rw [htree.tableAt_storeLeaf ht]
    exact ht
  · rw [show (of cr2).l = index cr2 12 from rfl, store_self]
    exact hflag

/-! ### The paths -/

theorem index_pageFloor (a : BitVec 64) {s : Nat} (hs : 12 ≤ s) (hs' : s + 9 ≤ 64) :
    index (pageFloor a) s = index a s := by
  apply BitVec.eq_of_getLsbD_eq
  intro i hi
  have hmask : (~~~0xFFF#64).getLsbD (s + i) = true := by
    rw [BitVec.getLsbD_not, show 0xFFF#64 = BitVec.ofNat 64 (2 ^ 12 - 1) from rfl,
      BitVec.getLsbD_ofNat, Nat.testBit_two_pow_sub_one]
    have hge : ¬ s + i < 12 := by omega
    have hlt : s + i < 64 := by omega
    simp [hge, hlt]
  rw [index, index, BitVec.getLsbD_extractLsb', BitVec.getLsbD_extractLsb', pageFloor,
    BitVec.getLsbD_and, hmask, Bool.and_true]

theorem Vpn.of_pageFloor (a : BitVec 64) : of (pageFloor a) = of a := by
  simp only [of, index_pageFloor a (s := 39) (by decide) (by decide),
    index_pageFloor a (s := 30) (by decide) (by decide),
    index_pageFloor a (s := 21) (by decide) (by decide),
    index_pageFloor a (s := 12) (by decide) (by decide)]

variable (hok : ∀ q, IsFrame q → ok (link q)) (hclean : ∀ e, ok e → CleanTable e)
  (h : Tree half ok m pml4) (hv : half (index cr2 39) = true)
include hok hclean h hv

omit hclean hv in
/-- `map_pml4` comes to the table of a page if there is memory for the tables it lacks. -/
theorem Tree.granted (hsmall : ∀ e, ok e → has e pageHuge = false) {flags : BitVec 64}
    (hf : flags &&& pageUser = pageUser) {path : List (BitVec 9)} (is : List (BitVec 9))
    (hlen : path.length + is.length ≤ 3) (ht : m.tableAt half pml4 path = some t)
    (hi : path = [] → ∀ i ∈ is.head?, half i = true) :
    (Machine.walk (Machine.mapLevel · flags) is m t).2.isSome =
      grants (m.lacking pml4 half path is) m := by
  induction is generalizing m t path with
  | nil => rfl
  | cons i rest ih =>
    rw [List.length_cons] at hlen
    have hleads : Leads half path i := ⟨by omega, fun hp => hi hp i rfl⟩
    have hcome : Comes half ok True m pml4 (i :: path) (m.mapLevel flags t i) :=
      h.mapLevel hf hok hsmall ht hleads
    have hnext {m' : Machine} {n : Ptr} (heq : m.mapLevel flags t i = (m', some n)) :
        (Machine.walk (Machine.mapLevel · flags) (i :: rest) m t).2.isSome =
          grants (m'.lacking pml4 half (i :: path) rest) m' := by
      rw [heq] at hcome
      rw [Machine.walk, heq]
      exact ih hcome.tree (by rw [List.length_cons]; omega) hcome.found (fun hx => by cases hx)
    cases hpresent : has (m.word t i) pagePresent with
    | true =>
      have hat := tableAt_follow ht hleads hpresent (hsmall _ (h.entries path t i ht hleads hpresent))
      have hlevel : m.mapLevel flags t i =
          ((m.ptNext (m.word t i)).1, some (frameOf (m.word t i))) := by
        simp only [Machine.mapLevel, hpresent, if_true]
        rfl
      rw [hnext hlevel, lacking, hat, Option.isSome_some, if_pos rfl]
      have hsame : (m.ptNext (m.word t i)).1.tableAt half pml4 = m.tableAt half pml4 :=
        tableAt_congr rfl half pml4
      rw [lacking_congr pml4 hsame]
      exact grants_congr (by rfl) (by rfl) (by rfl) _
    | false =>
      rw [lacking, tableAt_absent ht hpresent, Option.isSome_none, if_neg Bool.false_ne_true, grants]
      rcases allocPage_cases h.sound with ⟨hnull, -⟩ | htook
      · have hlevel : m.mapLevel flags t i = (m.allocPage.1, none) := by
          simp only [Machine.mapLevel, hpresent, hnull, Bool.false_eq_true, if_false, if_true]
        rw [Machine.walk, hlevel, hnull]
        rfl
      · have hlevel : m.mapLevel flags t i =
            ((m.allocPage.1.fill m.allocPage.2 fun _ => 0#64).store t i (link m.allocPage.2),
              some m.allocPage.2) := by
          simp only [Machine.mapLevel, hpresent, htook.frame.ne_zero, Bool.false_eq_true, if_false,
            hf]
          rfl
        have hlack : ((m.allocPage.1.fill m.allocPage.2 fun _ => 0#64).store t i
            (link m.allocPage.2)).lacking pml4 half (i :: path) rest = rest.length := by
          cases rest with
          | nil => rfl
          | cons j rest =>
            have hne : j :: i :: path ≠ i :: path := fun hx => by simpa using congrArg List.length hx
            have hnone := (h.tableAt_newTable ht hleads hpresent htook _).trans ((if_neg hne).trans
              (tableAt_append_none (tableAt_absent ht hpresent) [j]))
            rw [lacking, hnone]
            rfl
        rw [hnext hlevel, hlack, bne_iff_ne.mpr htook.frame.ne_zero, Bool.true_and]
        exact grants_congr (by rfl) (by rfl) (by rfl) _

/-- A heap or a stack page is there if there is memory for it and for the tables it lacks. -/
theorem Tree.demandZero (hsmall : ∀ e, ok e → has e pageHuge = false)
    (habsent : has err 1#64 = false) :
    Served half m pml4 cr2 err (m.demandZero pml4 cr2) ↔ (grants 1 m = true →
      grants (m.lacking pml4 half [] [index cr2 39, index cr2 30, index cr2 21] + 1) m = true) := by
  unfold Machine.demandZero
  dsimp only
  rcases allocPage_cases h.sound with ⟨hnull, href⟩ | htook
  · rw [if_pos hnull]
    refine iff_of_true (.refused href.frames) fun hx => ?_
    rw [grants, hnull] at hx
    cases hx
  rw [if_neg htook.frame.ne_zero]
  have hone : grants 1 m = true := by
    rw [grants, bne_iff_ne.mpr htook.frame.ne_zero]
    rfl
  obtain ⟨htree, hat, -⟩ := h.takePage htook fun _ => 0#64
  have hfloor : half (index (pageFloor cr2) 39) = true := by
    rw [index_pageFloor cr2 (by decide) (by decide)]
    exact hv
  have hgranted : (Machine.walk (Machine.mapLevel · (0x7#64 ||| pageNx))
      [index (pageFloor cr2) 39, index (pageFloor cr2) 30, index (pageFloor cr2) 21]
      (m.allocPage.1.fill m.allocPage.2 fun _ => 0#64) pml4).2.isSome =
      grants (m.lacking pml4 half [] [index cr2 39, index cr2 30, index cr2 21] + 1) m := by
    refine (htree.granted hok hsmall (by decide) _ (by simp) tableAt_nil fun _ i hi => ?_).trans ?_
    · obtain rfl := Option.some.inj hi
      exact hfloor
    rw [lacking_congr pml4 hat, index_pageFloor cr2 (by decide) (by decide),
      index_pageFloor cr2 (by decide) (by decide), index_pageFloor cr2 (by decide) (by decide),
      grants, bne_iff_ne.mpr htook.frame.ne_zero, Bool.true_and]
    exact grants_congr (by rfl) (by rfl) (by rfl) _
  obtain ⟨htree', ⟨-, hnone, hwalk⟩ | ⟨⟨t, ht, hwalk⟩, hentry⟩⟩ := htree.mapPml4 m.allocPage.2
    (pageFloor cr2) (0x7#64 ||| pageNx) (by decide) hok hsmall hfloor
  · -- A table cannot be allocated, and the walk to the page ends there.
    rw [hwalk] at hgranted
    refine iff_of_false (fun hs => ?_) fun hx => by cases hgranted.trans (hx hone)
    obtain ⟨t, i, hptr, -⟩ := hs.present rfl
    have hfound := (Tree.walkTo (fun m t p i h ht hi => h.descend false hok hclean ht hi) htree'
      hv).found
    rw [walk_descend_fst, ← of_pageFloor, hnone] at hfound
    have hsome := congrArg (fun r => r.2.isSome) hptr
    simp only [ptePtr, Option.isSome_map] at hsome
    exact Bool.false_ne_true ((congrArg Option.isSome hfound).trans hsome)
  · rw [hwalk] at hgranted
    refine iff_of_true ⟨fun _ => ?_, (fun _ hx => by cases habsent.symm.trans hx),
      fun hx => by cases hx⟩ fun _ => hgranted.symm
    rw [of_pageFloor] at ht
    refine htree'.leafHas hclean ht rfl ?_
    have hleaf := hentry (of cr2)
    rw [entryAt_of ht, of_pageFloor, if_pos rfl] at hleaf
    rw [show index cr2 12 = (of cr2).l from rfl, hleaf, userLeaf]
    simp only [has_lor]
    rw [show has pagePresent pagePresent = true by decide]
    simp

/-- A page of an mmap region. The tables come first, so they stay when there is no page. -/
theorem Tree.demandRegion (v : Region) (habsent : has err 1#64 = false) :
    Served half m pml4 cr2 err (m.demandRegion pml4 v cr2) := by
  have hcome : Comes half ok False m pml4 (of cr2).table
      (Machine.walk (Machine.descend · true) [index cr2 39, index cr2 30, index cr2 21] m pml4) :=
    Tree.walkTo (fun m t p i h ht hi => h.descend true hok hclean ht hi) h hv
  unfold Machine.demandRegion
  rw [ptePtr]
  cases hr : Machine.walk (Machine.descend · true) [index cr2 39, index cr2 30, index cr2 21]
      m pml4 with
  | mk m₁ pt =>
    rw [hr] at hcome
    have htables : Served half m pml4 cr2 err (m₁, false) :=
      ⟨(fun hx => by cases hx), (fun hx => by cases hx), fun _ => hcome.grows.taken⟩
    cases pt with
    | none => exact htables
    | some t =>
      have ht := hcome.found
      dsimp only [Option.map]
      rcases allocPage_cases hcome.tree.sound with ⟨hnull, href⟩ | htook
      · rw [if_pos hnull]
        refine ⟨(fun hx => by cases hx), (fun hx => by cases hx), fun _ f hf h0 hne => ?_⟩
        rw [Machine.refs, refcount, href.frames] at hne
        obtain ⟨path, hpath⟩ := hcome.grows.taken f hf h0 hne
        exact ⟨path, by rw [tableAt_congr href.word]; exact hpath⟩
      · rw [if_neg htook.frame.ne_zero]
        refine ⟨fun _ => ?_, (fun _ hx => by cases habsent.symm.trans hx), fun hx => by cases hx⟩
        have hflag : has (frameOf m₁.allocPage.2 ||| protFlags v.prot) pagePresent = true := by
          simp only [protFlags, has_lor]
          rw [show has pagePresent pagePresent = true by decide]
          simp
        split_ifs with hfile
        · refine hcome.tree.newPage hclean ht htook (fun _ => 0#64) hflag ?_
          rfl
        refine hcome.tree.newPage hclean ht htook
          (fun i => ofBytes fun b => v.pageByte cr2 (i ++ b)) hflag ?_
        exact congrArg (fun m : Machine => (m.store t (index cr2 12)
          (frameOf m₁.allocPage.2 ||| protFlags v.prot)).word) fill_fill

omit hok hv in
theorem Tree.copyOnWrite (ht : m.tableAt half pml4 (of cr2).table = some t) :
    Served half m pml4 cr2 err (m.copyOnWrite t (index cr2 12)) := by
  have hflags (p : Ptr) (kept : BitVec 64) :
      has (p ||| pagePresent ||| pageWritable ||| kept) pagePresent = true ∧
        has (p ||| pagePresent ||| pageWritable ||| kept) pageWritable = true := by
    simp only [has_lor, show has pagePresent pagePresent = true by decide,
      show has pageWritable pageWritable = true by decide, Bool.or_true, Bool.true_or, and_self]
  unfold Machine.copyOnWrite
  dsimp only
  split
  · -- the sole owner: the entry is rewritten in place
    have hleaf {e flag : BitVec 64} (hflag : has e flag = true) :
        (m.store t (index cr2 12) e).LeafHas pml4 cr2 flag := by
      refine (h.storeLeaf (v := of cr2) ht e).leafHas hclean (t := t) ?_ rfl ?_
      · rw [h.tableAt_storeLeaf ht]
        exact ht
      · rw [show (of cr2).l = index cr2 12 from rfl, store_self]
        exact hflag
    exact ⟨fun _ => hleaf (hflags _ _).1, fun _ _ => hleaf (hflags _ _).2, fun hx => by cases hx⟩
  · rcases allocPage_cases h.sound with ⟨hnull, href⟩ | htook
    · rw [if_pos hnull]
      exact .refused href.frames
    · rw [if_neg htook.frame.ne_zero]
      exact ⟨fun _ => h.newPage hclean ht htook _ (hflags _ _).1 rfl,
        fun _ _ => h.newPage hclean ht htook _ (hflags _ _).2 rfl, fun hx => by cases hx⟩

/-- A page with an entry: marked for demand paging, or copy-on-write. -/
theorem Tree.faultLeaf : Served half m pml4 cr2 err (m.faultLeaf pml4 cr2 err) := by
  have hcome : Comes half ok False m pml4 (of cr2).table
      (Machine.walk (Machine.descend · false) [index cr2 39, index cr2 30, index cr2 21] m pml4) :=
    Tree.walkTo (fun m t p i h ht hi => h.descend false hok hclean ht hi) h hv
  have hfst := walk_descend_fst (m := m) [index cr2 39, index cr2 30, index cr2 21] pml4
  unfold Machine.faultLeaf
  rw [ptePtr]
  cases hr : Machine.walk (Machine.descend · false) [index cr2 39, index cr2 30, index cr2 21]
      m pml4 with
  | mk m₁ pt =>
    rw [hr] at hcome hfst
    obtain rfl : m₁ = m := hfst
    cases pt with
    | none => exact .refused rfl
    | some t =>
      have ht := hcome.found
      dsimp only [Option.map]
      split_ifs with hdemand hnull hcow
      · rcases allocPage_cases h.sound with ⟨-, href⟩ | htook
        · exact .refused href.frames
        · exact absurd hnull htook.frame.ne_zero
      · rcases allocPage_cases h.sound with ⟨hnull', -⟩ | htook
        · exact absurd hnull' hnull
        simp only [Bool.and_eq_true, Bool.not_eq_true'] at hdemand
        refine ⟨fun _ => ?_, (fun _ hx => by cases hdemand.1.symm.trans hx), fun hx => by cases hx⟩
        refine h.newPage hclean ht htook (fun _ => 0#64) ?_ rfl
        simp only [has_lor, show has pagePresent pagePresent = true by decide, Bool.or_true,
          Bool.true_or]
      · exact h.copyOnWrite hclean ht
      · exact .refused rfl

end

/-! ### The handler -/

section
variable {m : Machine} {currentPml4 : Ptr} {p : Option Running} {cr2 err : BitVec 64}

theorem served_vmHandleFault {pml4 : Ptr} {sp : Space}
    (h : Tree (slotOf cr2) (FaultTable true cr2) m pml4) (hbreak : sp.programBreak ≤ userSpaceEnd) :
    Served (slotOf cr2) m pml4 cr2 err (m.vmHandleFault pml4 sp cr2 err) ↔
      (zeroFills sp cr2 err = true → grants 1 m = true → grants
        (m.lacking pml4 (slotOf cr2) [] [index cr2 39, index cr2 30, index cr2 21] + 1) m = true) := by
  have hv := slotOf_self cr2
  have hok (q : Ptr) (hq : IsFrame q) : FaultTable true cr2 (link q) := .link hq
  have hclean (e : BitVec 64) (he : FaultTable true cr2 e) : CleanTable e := he.1
  rcases m.vmHandleFault_cases pml4 sp cr2 err with ⟨hz, hzero, habsent, hlow⟩ | ⟨hz, hother⟩
  · have hend : cr2 < userSpaceEnd := by
      rcases hlow with hheap | hstack
      · exact BitVec.lt_def.mpr (Nat.lt_of_lt_of_le (BitVec.lt_def.mp hheap) hbreak)
      · exact BitVec.lt_def.mpr (Nat.lt_of_lt_of_le (BitVec.lt_def.mp hstack) (by decide))
    rw [hzero, hz]
    exact (h.demandZero hok hclean hv (fun e he => he.2 rfl hend) habsent).trans
      ⟨fun hx _ => hx, fun hx => hx rfl⟩
  · refine iff_of_true ?_ fun hx => by cases hz.symm.trans hx
    rcases hother with ⟨v, hregion, habsent⟩ | hfalse | hleaf
    · rw [hregion]
      exact h.demandRegion hok hclean hv v habsent
    · rw [hfalse]
      exact .refused rfl
    · rw [hleaf]
      exact h.faultLeaf hok hclean hv

/-- What the handler returns means what it should exactly if a fault on the heap or the stack for
which there is a page finds memory for the tables of the page too: a fault reported as resolved has
a present entry, writable after a fault on a present page, and when the handler refuses, every
frame it took is a table that the walk can reach. -/
theorem vmHandleAnyFault_resolved
    (h : Tree (slotOf cr2) (FaultTable (faultProcess p err).isSome cr2) m
      (faultPml4 currentPml4 p err))
    (hbreak : ∀ r ∈ p, r.space.programBreak ≤ userSpaceEnd) :
    Served (slotOf cr2) m (faultPml4 currentPml4 p err) cr2 err
        (m.vmHandleAnyFault currentPml4 p cr2 err) ↔
      ∀ own ∈ faultProcess p err, zeroFills own.space cr2 err = true → grants 1 m = true →
        grants (m.lacking own.pageDirectory (slotOf cr2) []
          [index cr2 39, index cr2 30, index cr2 21] + 1) m = true := by
  cases hp : faultProcess p err with
  | some own =>
    have hmem : own ∈ p := (Option.filter_eq_some_iff.mp hp).1
    simp only [faultPml4, Machine.vmHandleAnyFault, hp] at h ⊢
    simp only [Option.mem_some, forall_eq']
    exact served_vmHandleFault h (hbreak own hmem)
  | none =>
    simp only [faultPml4, Machine.vmHandleAnyFault, hp] at h ⊢
    refine iff_of_true ?_ nofun
    split_ifs
    · exact .refused rfl
    · exact .refused rfl
    · exact h.faultLeaf (fun q hq => .link hq) (fun e he => he.1) (slotOf_self cr2)

end

/-! ### A heap fault, with and without memory for the page's table -/

/-- A process with a page directory that was just allocated, and a heap of two pages. -/
def heapProcess : Running := ⟨0x1000#64, ⟨0x400000#64, 0x402000#64, fun _ => .zero, 0#64⟩⟩

theorem vmHandleAnyFault_resolved_heap :
    let r := Machine.small.allocPage.1.vmHandleAnyFault 0#64 (some heapProcess) 0x401234#64 6#64
    r.2 = true ∧ r.1.LeafHas 0x1000#64 0x401234#64 pagePresent := by
  have hheld : Machine.small.allocPage.1.refs 0x1000#64 ≠ 0 := by decide +kernel
  have hwords : ∀ i, Machine.small.allocPage.1.word 0x1000#64 i = 0#64 := by decide +kernel
  have hsound : Machine.small.allocPage.1.Sound := by
    rcases Machine.allocPage_cases Machine.sound_small with ⟨hnull, -⟩ | htook
    · exact absurd hnull (by decide +kernel)
    · exact htook.sound Machine.sound_small
  have hbreak : ∀ r ∈ some heapProcess, r.space.programBreak ≤ userSpaceEnd := by
    rintro r ⟨⟩
    decide
  have htrue : (Machine.small.allocPage.1.vmHandleAnyFault 0#64 (some heapProcess) 0x401234#64
      6#64).2 = true := by decide +kernel
  have hgrants : grants (Machine.small.allocPage.1.lacking 0x1000#64 (slotOf 0x401234#64) []
      [index 0x401234#64 39, index 0x401234#64 30, index 0x401234#64 21] + 1)
      Machine.small.allocPage.1 = true := by decide +kernel
  have hpml4 : faultPml4 0#64 (some heapProcess) 6#64 = 0x1000#64 := by decide
  have htree : Tree (slotOf 0x401234#64)
      (FaultTable (faultProcess (some heapProcess) 6#64).isSome 0x401234#64)
      Machine.small.allocPage.1 (faultPml4 0#64 (some heapProcess) 6#64) := by
    rw [hpml4]
    exact Tree.empty hsound (fun _ => hheld) hwords
  have hserved := (vmHandleAnyFault_resolved htree hbreak).mpr fun own hown _ _ => by
    obtain rfl : heapProcess = own := Option.some.inj hown
    exact hgrants
  have hpresent := hserved.present htrue
  rw [hpml4] at hpresent
  exact ⟨htrue, hpresent⟩

/-- The same fault when the page is allocated and its first table is not: the handler returns 1,
there is no entry for the page, and nothing refers to the frame it took. -/
theorem vmHandleAnyFault_unmapped :
    let m := {Machine.small.allocPage.1 with exhausted := fun n => n == 2}
    let r := m.vmHandleAnyFault 0#64 (some heapProcess) 0x401234#64 6#64
    r.2 = true ∧ (r.1.ptePtr 0x1000#64 0x401234#64 false).2 = none ∧
      m.refs 0x2000#64 = 0 ∧ r.1.refs 0x2000#64 = 1 ∧ ∀ i, r.1.word 0x1000#64 i = 0#64 := by
  decide +kernel

end Nyx.Paging
