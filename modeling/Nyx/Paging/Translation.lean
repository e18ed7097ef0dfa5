import Nyx.Paging.Access
import Nyx.Paging.Radix

/-! `map_page_dir` as seen through `user_v2p`: an update of one page.

`user_v2p` walks the four levels by itself. In a tree without huge pages whose tables are open to
ring 3 it answers from the leaf entry alone (`userV2p_eq`), and `map_page_dir` changes one leaf
entry, whatever tables it makes on the way. -/
namespace Nyx.Paging
open Machine Vpn BitVec
open Process (userSpaceMin userSpaceEnd)
open Lib

/-- The first indices of the addresses below `USER_SPACE_END`. -/
def userHalf (i : BitVec 9) : Bool := decide (i.toNat < 256)

def OpenTable (e : BitVec 64) : Prop := has e pageUser = true ∧ has e pageHuge = false

def InUserSpace (a : BitVec 64) : Prop := userSpaceMin ≤ a ∧ a < userSpaceEnd

/-! ### Addresses -/

section
variable {a b o v : BitVec 64}

theorem toNat_index (a : BitVec 64) (s : Nat) : (index a s).toNat = a.toNat / 2 ^ s % 512 := by
  rw [index, BitVec.extractLsb'_toNat, Nat.shiftRight_eq_div_pow]

theorem InUserSpace.half (h : InUserSpace a) : userHalf (index a 39) = true := by
  have hlt : a.toNat < 0x800000000000 := lt_def.mp h.2
  rw [userHalf, decide_eq_true_eq, toNat_index]
  omega

/-- Two addresses of the user half are on one page if their indices are the same. -/
theorem Vpn.of_inj (ha : InUserSpace a) (hb : InUserSpace b) :
    of a = of b ↔ a.toNat / 4096 = b.toNat / 4096 := by
  have hlta : a.toNat < 0x800000000000 := lt_def.mp ha.2
  have hltb : b.toNat < 0x800000000000 := lt_def.mp hb.2
  rw [of, of, mk.injEq, ← toNat_inj, ← toNat_inj, ← toNat_inj, ← toNat_inj]
  simp only [toNat_index]
  omega

theorem InUserSpace.add (hv : InUserSpace v) (hpage : v.toNat % 4096 = 0) (ho : o.toNat < 4096) :
    (v + o).toNat = v.toNat + o.toNat ∧ InUserSpace (v + o) := by
  have hlo : 0x1000 ≤ v.toNat := le_def.mp hv.1
  have hhi : v.toNat < 0x800000000000 := lt_def.mp hv.2
  have hsum : (v + o).toNat = v.toNat + o.toNat := by
    rw [toNat_add]
    exact Nat.mod_eq_of_lt (by omega)
  refine ⟨hsum, le_def.mpr ?_, lt_def.mpr ?_⟩
  · rw [hsum]
    exact Nat.le_add_right_of_le hlo
  · rw [hsum]
    show v.toNat + o.toNat < 0x800000000000
    omega

theorem and_offset (a : BitVec 64) : (a &&& 0xFFF#64).toNat = a.toNat % 4096 := by
  rw [toNat_and]
  exact Nat.and_two_pow_sub_one_eq_mod a.toNat 12

end

/-! ### From the entry -/

def isOpen (e : BitVec 64) : Bool := e &&& 5#64 == 5#64

theorem isOpen_eq (e : BitVec 64) : isOpen e = (has e pagePresent && has e pageUser) := by
  have h0 : e &&& 1#64 = if e.getLsbD 0 then 1#64 else 0#64 := by
    rw [show 1#64 = BitVec.twoPow 64 0 by decide, BitVec.and_twoPow]
  have h2 : e &&& 4#64 = if e.getLsbD 2 then 4#64 else 0#64 := by
    rw [show 4#64 = BitVec.twoPow 64 2 by decide, BitVec.and_twoPow]
  have hfive : e &&& 5#64 = e &&& 1#64 ||| e &&& 4#64 := by
    rw [← BitVec.and_or_distrib_left]
    rfl
  rw [isOpen, has, has, pagePresent, pageUser, hfive, h0, h2]
  cases e.getLsbD 0 <;> cases e.getLsbD 2 <;> rfl

section
variable {m : Machine} {pml4 : Ptr} {a : BitVec 64}

theorem Machine.tableAt_none {half : BitVec 9 → Bool} {p : List (BitVec 9)} (i : BitVec 9)
    (h : m.tableAt half pml4 p = none) : m.tableAt half pml4 (i :: p) = none := by
  rw [tableAt, Trie.reach, show Trie.reach (m.tableChild half) 0 pml4 p = none from h]
  rfl

/-- One level of `user_v2p`: on to the next table, or a refusal because there is none. -/
theorem Tree.openEntry (h : Tree userHalf OpenTable m pml4) {p : List (BitVec 9)} {t : Ptr}
    {i : BitVec 9} (ht : m.tableAt userHalf pml4 p = some t) (hi : Leads userHalf p i) :
    isOpen (m.word t i) = true ∧ has (m.word t i) pageHuge = false ∧
        m.tableAt userHalf pml4 (i :: p) = some (frameOf (m.word t i)) ∨
      isOpen (m.word t i) = false ∧ m.tableAt userHalf pml4 (i :: p) = none := by
  rw [isOpen_eq]
  cases hpresent : has (m.word t i) pagePresent with
  | true =>
    obtain ⟨huser, hsmall⟩ := h.entries p t i ht hi hpresent
    exact .inl ⟨by rw [huser]; rfl, hsmall, tableAt_follow ht hi hpresent hsmall⟩
  | false =>
    refine .inr ⟨rfl, ?_⟩
    rw [tableAt_cons ht, tableChild, if_neg]
    rw [hpresent]
    exact fun hx => Bool.false_ne_true hx.2.2.1

theorem userV2p_eq (h : Tree userHalf OpenTable m pml4) (hp : frameOf pml4 = pml4)
    (hp0 : pml4 ≠ 0#64) (ha : InUserSpace a) : m.userV2p pml4 a =
      if isOpen (m.entryAt userHalf pml4 (of a)) then
        frameOf (m.entryAt userHalf pml4 (of a)) + (a &&& 0xFFF#64)
      else 0#64 := by
  have hin : ¬ (a < userSpaceMin ∨ userSpaceEnd ≤ a) := by
    rintro (hlo | hhi)
    · exact absurd ha.1 (BitVec.not_le.mpr hlo)
    · exact absurd ha.2 (BitVec.not_lt.mpr hhi)
  have hnone : m.tableAt userHalf pml4 (of a).table = none →
      (if isOpen (m.entryAt userHalf pml4 (of a)) then
        frameOf (m.entryAt userHalf pml4 (of a)) + (a &&& 0xFFF#64) else 0#64) = 0#64 := by
    intro hx
    have hzero : m.entryAt userHalf pml4 (of a) = 0#64 := by rw [entryAt, hx]
    rw [hzero]
    exact if_neg (by decide)
  simp only [userV2p, if_neg hp0, if_neg hin, hp]
  change (if (!isOpen (m.word pml4 (index a 39))) = true then _ else _) = _
  rcases h.openEntry tableAt_nil (i := index a 39) ⟨by decide, fun _ => ha.half⟩ with
    ⟨hopen, -, h1⟩ | ⟨hshut, h1⟩
  case inr =>
    rw [hshut, hnone (tableAt_none _ (tableAt_none _ h1))]
    rfl
  rw [hopen]
  change (if (!isOpen (m.word _ (index a 30))) = true then _ else _) = _
  rcases h.openEntry h1 (i := index a 30) ⟨by simp, fun hx => by cases hx⟩ with
    ⟨hopen, hsmall, h2⟩ | ⟨hshut, h2⟩
  case inr =>
    rw [hshut, hnone (tableAt_none _ h2)]
    rfl
  rw [hopen, hsmall]
  change (if (!isOpen (m.word _ (index a 21))) = true then _ else _) = _
  rcases h.openEntry h2 (i := index a 21) ⟨by simp, fun hx => by cases hx⟩ with
    ⟨hopen, hsmall, h3⟩ | ⟨hshut, h3⟩
  case inr =>
    rw [hshut, hnone h3]
    rfl
  rw [hopen, hsmall, entryAt_of (v := of a) h3]
  generalize frameOf (m.word (frameOf (m.word (frameOf (m.word pml4 (index a 39))) (index a 30)))
    (index a 21)) = t
  change (if (!isOpen (m.word t (index a 12))) = true then _ else _) =
    if isOpen (m.word t (index a 12)) = true then frameOf (m.word t (index a 12)) + _ else _
  cases isOpen (m.word t (index a 12)) <;> rfl

/-! ### `map_page_dir` -/

variable {v phys flags : BitVec 64}

/-- The entry that `map_pml4` writes: the frame, open to ring 3. -/
theorem userLeaf_open (hp : frameOf phys = phys) (hf : flags &&& pageUser = pageUser) :
    isOpen (userLeaf phys flags) = true ∧ frameOf (userLeaf phys flags) = phys := by
  have hnx : frameOf (flags &&& pageNx) = 0#64 := by
    rw [frameOf, BitVec.and_assoc, show pageNx &&& pteAddrMask = 0#64 by decide, BitVec.and_zero]
  constructor
  · rw [isOpen_eq, userLeaf, hf]
    simp only [has_lor]
    rw [show has pagePresent pagePresent = true by decide, show has pageUser pageUser = true by decide]
    simp
  · rw [userLeaf, hf, frameOf_lor, frameOf_lor, frameOf_lor, frameOf_lor, hnx, hp,
      show frameOf pagePresent = 0#64 by decide, show frameOf pageWritable = 0#64 by decide,
      show frameOf pageUser = 0#64 by decide]
    simp only [BitVec.or_zero]

theorem link_open {q : Ptr} (hq : IsFrame q) : OpenTable (link q) := by
  constructor
  all_goals
    rw [has_link hq (by decide)]
    decide

/-- What `map_page_dir` does to the tree, if it gets its tables. -/
theorem Tree.mapPageDir (h : Tree userHalf OpenTable m pml4) (hv : InUserSpace v)
    (hf : flags &&& pageUser = pageUser)
    (hgot : (m.mapPageDir pml4 phys v flags).events.nulls = m.events.nulls) :
    Tree userHalf OpenTable (m.mapPageDir pml4 phys v flags) pml4 ∧
      ∀ w, (m.mapPageDir pml4 phys v flags).entryAt userHalf pml4 w =
        if w = of v then userLeaf phys flags else m.entryAt userHalf pml4 w := by
  rw [Machine.mapPageDir] at hgot ⊢
  obtain ⟨htree, ⟨hlt, -⟩ | ⟨-, hentry⟩⟩ :=
    h.mapPml4 phys v flags hf (fun _ => link_open) (fun e he => he.2) hv.half
  · exact absurd (hgot ▸ hlt) (Nat.lt_irrefl _)
  · exact ⟨htree, hentry⟩

/-- Where no table entry of the user half has a reserved bit, the walk does not panic. -/
theorem Tree.mapPageDir_calm (h : Tree userHalf OpenTable m pml4) (hv : InUserSpace v)
    (hf : flags &&& pageUser = pageUser)
    (hcalm : ∀ p t i, m.tableAt userHalf pml4 p = some t → Leads userHalf p i →
      has (m.word t i) pagePresent = true → has (m.word t i) reservedBits = false) :
    (m.mapPageDir pml4 phys v flags).events.panics = m.events.panics := by
  have hcalmTree : Tree userHalf (fun e => OpenTable e ∧ has e reservedBits = false) m pml4 :=
    ⟨h.sound, h.distinct, h.fresh, fun p t i ht hi hpr => ⟨h.entries p t i ht hi hpr,
      hcalm p t i ht hi hpr⟩⟩
  rw [Machine.mapPageDir]
  refine hcalmTree.mapPml4_calm phys v flags hf (fun q hq => ⟨link_open hq, ?_⟩)
    (fun e he => he.1.2) hv.half fun e he => he.2
  rw [has_link hq (by decide)]
  decide

/-- Mapping a page changes what `user_v2p` answers on that page, and nothing else. It does not
panic on tables without reserved bits. -/
theorem mapPageDir_userV2p (h : Tree userHalf OpenTable m pml4) (hp : frameOf pml4 = pml4)
    (hp0 : pml4 ≠ 0#64) (hv : InUserSpace v) (hpage : v.toNat % 4096 = 0)
    (hphys : phys.toNat % 4096 = 0) (hlow : phys.toNat < 2 ^ 52)
    (hf : flags &&& pageUser = pageUser)
    (hgot : (m.mapPageDir pml4 phys v flags).events.nulls = m.events.nulls) :
    let m' := m.mapPageDir pml4 phys v flags
    (∀ o : BitVec 64, o.toNat < 4096 → m'.userV2p pml4 (v + o) = phys + o) ∧
      (∀ a : BitVec 64, a.toNat / 4096 ≠ v.toNat / 4096 → m'.userV2p pml4 a = m.userV2p pml4 a) ∧
      (∀ a : BitVec 64, ¬ InUserSpace a → m'.userV2p pml4 a = 0#64) ∧
      ((∀ p t i, m.tableAt userHalf pml4 p = some t → Leads userHalf p i →
          has (m.word t i) pagePresent = true → has (m.word t i) reservedBits = false) →
        m'.events.panics = m.events.panics) := by
  intro m'
  obtain ⟨htree, hentry⟩ := h.mapPageDir hv hf hgot
  have hrefused (m : Machine) (a : BitVec 64) (ha : ¬ InUserSpace a) : m.userV2p pml4 a = 0#64 := by
    have hout : a < userSpaceMin ∨ userSpaceEnd ≤ a := by
      by_contra hx
      obtain ⟨hlo, hhi⟩ := not_or.mp hx
      exact ha ⟨BitVec.not_lt.mp hlo, BitVec.not_le.mp hhi⟩
    simp only [Machine.userV2p, if_neg hp0, if_pos hout]
  refine ⟨fun o ho => ?_, fun a ha => ?_, fun a ha => hrefused m' a ha, h.mapPageDir_calm hv hf⟩
  · obtain ⟨hsum, hin⟩ := hv.add hpage ho
    have hsame : Vpn.of (v + o) = Vpn.of v := (Vpn.of_inj hin hv).mpr (by omega)
    obtain ⟨hopen, hframe⟩ := userLeaf_open (frameOf_of_aligned hphys hlow) hf
    have hoff : (v + o) &&& 0xFFF#64 = o := by
      apply BitVec.eq_of_toNat_eq
      rw [and_offset, hsum]
      omega
    rw [userV2p_eq htree hp hp0 hin, hentry, if_pos hsame, hopen, if_pos rfl, hframe, hoff]
  · by_cases hin : InUserSpace a
    · have hne : Vpn.of a ≠ Vpn.of v := fun hx => ha ((Vpn.of_inj hin hv).mp hx)
      rw [userV2p_eq htree hp hp0 hin, userV2p_eq h hp hp0 hin, hentry, if_neg hne]
    · rw [hrefused m' a hin, hrefused m a hin]

/-- The first page of user space, in a page directory that was just allocated. -/
theorem mapPageDir_userV2p_first :
    let m := Machine.small.allocPage.1
    let m' := m.mapPageDir 0x1000#64 0x5000#64 0x1000#64 7#64
    m'.userV2p 0x1000#64 0x1234#64 = 0x5234#64 ∧ m'.userV2p 0x1000#64 0x2000#64 = 0#64 := by
  have hheld : Machine.small.allocPage.1.refs 0x1000#64 ≠ 0 := by decide +kernel
  have hwords : ∀ i, Machine.small.allocPage.1.word 0x1000#64 i = 0#64 := by decide +kernel
  have hgot : (Machine.small.allocPage.1.mapPageDir 0x1000#64 0x5000#64 0x1000#64 7#64).events.nulls
      = Machine.small.allocPage.1.events.nulls := by decide +kernel
  have hzero : Machine.small.allocPage.1.userV2p 0x1000#64 0x2000#64 = 0#64 := by decide +kernel
  have hsound : Machine.small.allocPage.1.Sound := by
    rcases Machine.allocPage_cases Machine.sound_small with ⟨hnull, -⟩ | htook
    · exact absurd hnull (by decide +kernel)
    · exact htook.sound Machine.sound_small
  have htree : Tree userHalf OpenTable Machine.small.allocPage.1 0x1000#64 :=
    Tree.empty hsound (fun _ => hheld) hwords
  obtain ⟨hpage, hother, -⟩ := mapPageDir_userV2p htree (by decide) (by decide)
    ⟨by decide, by decide⟩ (by decide) (by decide) (by decide) (by decide) hgot
  have hfirst := hpage 0x234#64 (by decide)
  rw [show 0x1000#64 + 0x234#64 = 0x1234#64 from rfl,
    show 0x5000#64 + 0x234#64 = 0x5234#64 from rfl] at hfirst
  exact ⟨hfirst, (hother 0x2000#64 (by decide)).trans hzero⟩

end

end Nyx.Paging
