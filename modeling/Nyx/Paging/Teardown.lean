import Nyx.Paging.Entries

/-! `free_page_directory` gives back every reference its address space holds, once each. -/
namespace Nyx.Paging
open Lib Machine List

/-! ### Indices -/

theorem mem_indices (i : BitVec 9) : i ∈ indices 512 := by
  rw [indices, mem_map]
  exact ⟨i.toNat, mem_range.mpr i.isLt, BitVec.ofNat_toNat ..⟩

theorem nodup_indices : (indices 512).Nodup := by
  rw [indices, nodup_map_iff_inj_on nodup_range]
  intro a ha b hb h
  rw [mem_range] at ha hb
  have := congrArg BitVec.toNat h
  simp only [BitVec.toNat_ofNat] at this
  omega

theorem indices_split : indices 512 = indices pml4Higher ++ [higher] := by
  rw [indices, range_succ, map_append]
  rfl

theorem higher_notMem : ∀ i ∈ indices pml4Higher, i ≠ higher := by
  intro i hi he
  have hnodup := nodup_indices
  rw [indices_split, nodup_append] at hnodup
  exact hnodup.2.2 i hi higher (mem_singleton.mpr rfl) he

namespace Machine
variable {m m' : Machine}

/-! ### The frames released -/

def freeAll (m : Machine) (l : List Ptr) : Machine := l.foldl freePage m

theorem freeAll_append (l l' : List Ptr) : m.freeAll (l ++ l') = (m.freeAll l).freeAll l' :=
  foldl_append

variable (l : List Ptr)

@[simp] theorem freeAll_word : (m.freeAll l).word = m.word := by
  induction l generalizing m with
  | nil => rfl
  | cons p l ih => exact (ih (m := m.freePage p)).trans rfl

@[simp] theorem freeAll_events : (m.freeAll l).events = m.events := by
  induction l generalizing m with
  | nil => rfl
  | cons p l ih => exact (ih (m := m.freePage p)).trans rfl

@[simp] theorem freeAll_pinned : (m.freeAll l).pinned = m.pinned := by
  induction l generalizing m with
  | nil => rfl
  | cons p l ih => exact (ih (m := m.freePage p)).trans freePage_pinned

@[simp] theorem freeAll_frameAt (pd : Ptr) : (m.freeAll l).frameAt pd = m.frameAt pd :=
  frameAt_congr fun _ _ _ _ => by rw [freeAll_word]

@[simp] theorem freeAll_leaf (pd : Ptr) (v : Vpn) : (m.freeAll l).leaf pd v = m.leaf pd v := by
  rw [leaf, leaf, freeAll_frameAt, freeAll_word]

/-- Releasing a table frees what the live entries lead to, then the table. The words do not
change on the way, so the list can be read off at the start. -/
theorem freeEach_eq {live : BitVec 64 → Bool} {r : Machine → Ptr → Machine}
    {b : Ptr → List Ptr} {n : Nat} {tbl : Ptr}
    (h : ∀ m' : Machine, m'.word = m.word → ∀ i ∈ indices n, live (m.word tbl i) = true →
      r m' (frameOf (m.word tbl i)) = m'.freeAll (b (frameOf (m.word tbl i)))) :
    freeEach live r n m tbl = m.freeAll (((indices n).flatMap fun i =>
        if live (m.word tbl i) then b (frameOf (m.word tbl i)) else []) ++ [tbl]) := by
  have hfold : ∀ (l : List (BitVec 9)) (m' : Machine), m'.word = m.word → (∀ i ∈ l, i ∈ indices n) →
      l.foldl (fun m i => if live (m.word tbl i) then r m (frameOf (m.word tbl i)) else m) m' =
        m'.freeAll (l.flatMap fun i =>
          if live (m.word tbl i) then b (frameOf (m.word tbl i)) else []) := by
    intro l
    induction l with
    | nil => intro m' _ _; rfl
    | cons i l ih =>
      intro m' hw hl
      have hi := hl i (mem_cons_self ..)
      rw [foldl_cons, flatMap_cons, freeAll_append]
      have hbody : (if live (m'.word tbl i) then r m' (frameOf (m'.word tbl i)) else m') =
          m'.freeAll (if live (m.word tbl i) then b (frameOf (m.word tbl i)) else []) := by
        rw [hw]
        split
        case isTrue hlive => exact h m' hw i hi hlive
        case isFalse => rfl
      rw [hbody]
      exact ih _ (by rw [freeAll_word, hw]) fun j hj => hl j (mem_cons_of_mem _ hj)
  rw [freeEach, hfold _ m rfl fun _ hi => hi, freeAll_append]
  rfl

abbrev subtree (m : Machine) (depth lvl : Nat) (t : Ptr) : List Ptr :=
  Trie.nodes m.child (indices 512) depth lvl t

theorem subtree_succ (depth lvl : Nat) (t : Ptr) (hlvl : lvl < 4) (h0 : lvl ≠ 0) :
    m.subtree (depth + 1) lvl t = ((indices 512).flatMap fun i =>
        if has (m.word t i) pagePresent then m.subtree depth (lvl + 1) (frameOf (m.word t i))
        else []) ++ [t] := by
  rw [subtree, Trie.nodes]
  congr 2
  funext i
  rw [child]
  by_cases hp : has (m.word t i) pagePresent = true
  · rw [if_pos ⟨hlvl, fun hx => h0 hx.1, hp⟩, if_pos hp]
  · rw [if_neg (fun hx => hp hx.2.2), if_neg hp]

theorem freePt_eq (hw : m'.word = m.word) (t : Ptr) : freePt m' t = m'.freeAll (m.subtree 1 3 t) := by
  rw [freePt, freeEach_eq (b := fun c => [c]) (fun _ _ _ _ _ => rfl),
    subtree_succ 0 3 t (by decide) (by decide), hw]
  rfl

end Machine

namespace Ledger
variable {m m' : Machine} {dirs : Set Ptr} {extra : Ptr → Nat} {pd t : Ptr} {p : List (BitVec 9)}

theorem isTable_entry (h : Ledger m dirs extra) (hpd : pd ∈ dirs) (hlen : p.length < 3)
    (ht : m.frameAt pd p = some t) {i : BitVec 9} (hi : p = [] → i ≠ higher) :
    Machine.isTable (m.word t i) = has (m.word t i) pagePresent := by
  rcases h.links pd hpd p t i hlen ht hi with hz | ⟨q, hq, hl⟩
  · rw [Machine.isTable, hz, has_zero, has_zero]
    rfl
  rw [Machine.isTable, hl, has_link hq (by decide), has_link hq (by decide)]
  decide

theorem frameAt_entry (hlen : p.length < 3) (ht : m.frameAt pd p = some t) {i : BitVec 9}
    (hi : p = [] → i ≠ higher) (hpres : has (m.word t i) pagePresent = true) :
    m.frameAt pd (i :: p) = some (frameOf (m.word t i)) := by
  rw [frameAt_cons ht, child_eq_some]
  exact ⟨by omega, fun hx => hi (length_eq_zero_iff.mp hx.1) hx.2, hpres, rfl⟩

/-- One level of the release, below a table whose entries are links. -/
theorem freeLevel_eq (h : Ledger m dirs extra) (hpd : pd ∈ dirs) (hlen : p.length < 3)
    (hp : p ≠ []) (ht : m.frameAt pd p = some t) {r : Machine → Ptr → Machine}
    (hrel : ∀ i, has (m.word t i) pagePresent = true → ∀ m' : Machine, m'.word = m.word →
      r m' (frameOf (m.word t i)) =
        m'.freeAll (m.subtree (3 - p.length) (p.length + 1) (frameOf (m.word t i))))
    (hw : m'.word = m.word) :
    freeEach Machine.isTable r 512 m' t = m'.freeAll (m.subtree (3 - p.length + 1) p.length t) := by
  have hlive : ∀ i, Machine.isTable (m.word t i) = has (m.word t i) pagePresent := fun i =>
    h.isTable_entry hpd hlen ht (fun hx => absurd hx hp)
  have hpos : p.length ≠ 0 := fun hx => hp (length_eq_zero_iff.mp hx)
  rw [freeEach_eq (b := m.subtree (3 - p.length) (p.length + 1)),
    subtree_succ _ _ t (by omega) hpos, hw]
  · simp only [hlive]
  intro m'' hw' i _ hi
  rw [hw, hlive] at hi
  rw [hw]
  exact hrel i hi m'' (hw'.trans hw)

theorem freePd_eq (h : Ledger m dirs extra) (hpd : pd ∈ dirs) (hlen : p.length = 2)
    (ht : m.frameAt pd p = some t) (hw : m'.word = m.word) :
    freePd m' t = m'.freeAll (m.subtree 2 2 t) := by
  have hp : p ≠ [] := fun hx => by simp [hx] at hlen
  have := h.freeLevel_eq hpd (by omega) hp ht (r := freePt)
    (fun i _ m'' hw' => by rw [hlen]; exact freePt_eq hw' _) hw
  rwa [hlen] at this

theorem freePdpt_eq (h : Ledger m dirs extra) (hpd : pd ∈ dirs) (hlen : p.length = 1)
    (ht : m.frameAt pd p = some t) (hw : m'.word = m.word) :
    freePdpt m' t = m'.freeAll (m.subtree 3 1 t) := by
  have hp : p ≠ [] := fun hx => by simp [hx] at hlen
  have := h.freeLevel_eq hpd (by omega) hp ht (r := freePd) (fun i hi m'' hw' => by
      rw [hlen]
      exact h.freePd_eq hpd (p := i :: p) (by simp [hlen])
        (frameAt_entry (by omega) ht (fun hx => absurd hx hp) hi) hw') hw
  rwa [hlen] at this

/-- `free_page_directory` walks the whole user half. -/
theorem freePageDirectory_eq (h : Ledger m dirs extra) (hpd : pd ∈ dirs) :
    m.freePageDirectory pd = m.freeAll (m.subtree 4 0 pd) := by
  have htree : m.subtree 4 0 pd = ((indices pml4Higher).flatMap fun i =>
      if has (m.word pd i) pagePresent then m.subtree 3 1 (frameOf (m.word pd i)) else []) ++
        [pd] := by
    rw [subtree, Trie.nodes, indices_split, flatMap_append]
    have hhigh : m.child 0 pd higher = none := by simp [child]
    simp only [flatMap_singleton, hhigh, append_nil]
    refine congrArg (· ++ [pd]) (flatMap_congr fun i hi => ?_)
    have hne := higher_notMem i hi
    rw [child]
    by_cases hp : has (m.word pd i) pagePresent = true
    · rw [if_pos ⟨by decide, fun hx => hne hx.2, hp⟩, if_pos hp, subtree, indices_split]
    · rw [if_neg (fun hx => hp hx.2.2), if_neg hp]
  rw [Machine.freePageDirectory, if_neg (h.dir pd hpd).ne_zero,
    freeEach_eq (b := m.subtree 3 1), htree]
  · rfl
  · intro m' hw i hi hlive
    exact h.freePdpt_eq hpd (p := [i]) rfl
      (frameAt_entry (by simp) frameAt_nil (fun _ => higher_notMem i hi) hlive) hw

/-! ### The account -/

/-- The subtree lists each frame once for each place of the address space that holds it. -/
theorem encard_frameAt (m : Machine) (pd f : Ptr) :
    {path | m.frameAt pd path = some f}.encard = (m.subtree 4 0 pd).count f :=
  Trie.encard_reach nodup_indices (fun _ _ i _ _ => mem_indices i)
    (fun l n i hl => child_deep (by omega) n i)

theorem mem_subtree {f : Ptr} (hf : f ∈ m.subtree 4 0 pd) : ∃ path, m.frameAt pd path = some f := by
  have hpos : (m.subtree 4 0 pd).count f ≠ 0 := fun hz => count_eq_zero.mp hz hf
  have hne : {path | m.frameAt pd path = some f}.encard ≠ 0 := by
    rw [encard_frameAt]
    exact_mod_cast hpos
  obtain ⟨path, hpath⟩ := Set.nonempty_iff_ne_empty.mpr (Set.encard_ne_zero.mp hne).ne_empty
  exact ⟨path, hpath⟩

theorem frame_of_subtree (h : Ledger m dirs extra) (hpd : pd ∈ dirs) {f : Ptr}
    (hf : f ∈ m.subtree 4 0 pd) : IsFrame f := by
  obtain ⟨path, hpath⟩ := mem_subtree hf
  exact h.frame hpd hpath

/-- An address space that no process has any more: what it held is held by nobody. -/
theorem detach (h : Ledger m dirs extra) (hpd : pd ∈ dirs) :
    Ledger m (dirs \ {pd}) fun f => extra f + (m.subtree 4 0 pd).count f := by
  have hsub : dirs \ {pd} ⊆ dirs := Set.sdiff_subset
  have hholders : ∀ f, m.holders dirs f = m.holders (dirs \ {pd}) f ∪
      (fun path => (pd, path)) '' {path | m.frameAt pd path = some f} := by
    intro f
    ext ⟨pd', path⟩
    simp only [Machine.holders, Set.mem_ofPred_eq, Set.mem_union, Set.mem_image, Set.mem_sdiff,
      Set.mem_singleton_iff, Prod.mk.injEq]
    constructor
    · rintro ⟨hpd', hf⟩
      by_cases he : pd' = pd
      · exact .inr ⟨path, he ▸ hf, he.symm, rfl⟩
      · exact .inl ⟨⟨hpd', he⟩, hf⟩
    · rintro (⟨⟨hpd', _⟩, hf⟩ | ⟨_, hf, rfl, rfl⟩)
      · exact ⟨hpd', hf⟩
      · exact ⟨hpd, hf⟩
  have hdisj : ∀ f, Disjoint (m.holders (dirs \ {pd}) f)
      ((fun path => (pd, path)) '' {path | m.frameAt pd path = some f}) := by
    intro f
    rw [Set.disjoint_left]
    rintro _ ⟨⟨_, hne⟩, _⟩ ⟨path, _, rfl⟩
    exact hne rfl
  have hmem : ∀ f, m.holders (dirs \ {pd}) f ⊆ m.holders dirs f := fun f x hx =>
    ⟨hsub hx.1, hx.2⟩
  constructor
  case sound => exact h.sound
  case dir => exact fun pd' hpd' => h.dir pd' (hsub hpd')
  case links => exact fun pd' hpd' => h.links pd' (hsub hpd')
  case leaves => exact fun pd' hpd' => h.leaves pd' (hsub hpd')
  case vacant => exact fun pd' hpd' => h.vacant pd' (hsub hpd')
  case unique => exact fun f x hx y hy => h.unique f x (hmem f hx) y (hmem f hy)
  case tables =>
    rintro f ⟨pd', hpd', hf⟩
    exact h.tables f ⟨pd', hsub hpd', hf⟩
  case counted =>
    intro f hf hpin
    have hinj : Function.Injective fun path : List (BitVec 9) => (pd, path) :=
      fun _ _ he => (Prod.mk.inj he).2
    rw [← h.counted f hf hpin, hholders f, Set.encard_union_eq (hdisj f), hinj.encard_image,
      encard_frameAt, Nat.cast_add, add_assoc, add_comm (extra f : ℕ∞)]
  case pinned => exact h.pinned

theorem refs_of_extra (h : Ledger m dirs extra) {f : Ptr} (hf : IsFrame f)
    (hex : m.pinned f = true ∨ extra f ≠ 0) : m.refs f ≠ 0 := by
  cases hpin : m.pinned f with
  | true => exact h.pinned f hf hpin
  | false =>
    intro hz
    exact hex.resolve_left (by rw [hpin]; decide) (h.extra_of_fresh hf hz)

theorem owed {p : Ptr} {l : List Ptr} (hex : ∀ f, m.pinned f = false → (p :: l).count f ≤ extra f) :
    m.pinned p = true ∨ extra p ≠ 0 := by
  cases hpin : m.pinned p with
  | true => exact .inl rfl
  | false =>
    have hle := hex p hpin
    rw [count_cons_self] at hle
    exact .inr (by omega)

section
variable (h : Ledger m dirs extra)
include h

/-- One reference of a list is given back. -/
theorem freeHead {p : Ptr} {l : List Ptr} (hp : IsFrame p)
    (hex : ∀ f, m.pinned f = false → (p :: l).count f ≤ extra f) :
    Ledger (m.freePage p) dirs (drop extra p) ∧
      ∀ f, (m.freePage p).pinned f = false → l.count f ≤ drop extra p f := by
  have hpex := owed hex
  refine ⟨h.free hp (h.refs_of_extra hp hpex) hpex, fun f hpin => ?_⟩
  have hle := hex f (by rwa [freePage_pinned] at hpin)
  rw [drop]
  by_cases he : f = p
  · subst he
    rw [count_cons_self] at hle
    rw [Function.update_self]
    omega
  · rw [count_cons_of_ne (Ne.symm he)] at hle
    rwa [Function.update_of_ne he]

variable (l : List Ptr)

/-- A frame that keeps a reference is given back as often as it is listed. -/
theorem refs_freeAll (hframe : ∀ f ∈ l, IsFrame f)
    (hex : ∀ f, m.pinned f = false → l.count f ≤ extra f) {f : Ptr} (hf : IsFrame f)
    (hlt : l.count f < m.refs f) : (m.freeAll l).refs f = m.refs f - l.count f := by
  induction l generalizing m extra with
  | nil => rfl
  | cons p l ih =>
    have hp := hframe p (mem_cons_self ..)
    obtain ⟨hfree, hex'⟩ := h.freeHead hp hex
    have hrest := ih hfree (fun f hf => hframe f (mem_cons_of_mem _ hf)) hex'
    show ((m.freePage p).freeAll l).refs f = _
    by_cases he : f = p
    · subst he
      rw [count_cons_self] at hlt ⊢
      have hone := refs_freePage_of_lt (p := f) h.sound (by omega)
      rw [hrest (by omega), hone]
      omega
    · rw [count_cons_of_ne (Ne.symm he)] at hlt ⊢
      have hsame := refs_freePage_ne (m := m) hp hf he
      rw [hrest (by omega), hsame]

/-- Giving back references that are held by nobody. -/
theorem freeAll (l : List Ptr) (hframe : ∀ f ∈ l, IsFrame f)
    (hex : ∀ f, m.pinned f = false → l.count f ≤ extra f) :
    Ledger (m.freeAll l) dirs fun f => extra f - l.count f := by
  induction l generalizing m extra with
  | nil => exact h
  | cons p l ih =>
    obtain ⟨hfree, hex'⟩ := h.freeHead (hframe p (mem_cons_self ..)) hex
    have hrest := ih hfree (fun f hf => hframe f (mem_cons_of_mem _ hf)) hex'
    have hextra : (fun f => extra f - (p :: l).count f) = fun f => drop extra p f - l.count f := by
      funext f
      rw [drop]
      by_cases he : f = p
      · subst he
        rw [count_cons_self, Function.update_self]
        omega
      · rw [count_cons_of_ne (Ne.symm he), Function.update_of_ne he]
    rw [hextra]
    exact hrest

theorem coherent_freeAll (hframe : ∀ f ∈ l, IsFrame f)
    (hex : ∀ f, m.pinned f = false → l.count f ≤ extra f) {boot : Memory.Frames}
    (hb : Memory.Coherent boot m.frames) : Memory.Coherent boot (m.freeAll l).frames := by
  induction l generalizing m extra with
  | nil => exact hb
  | cons p l ih =>
    have hp := hframe p (mem_cons_self ..)
    obtain ⟨hfree, hex'⟩ := h.freeHead hp hex
    have hused : m.refs p ≠ 0 := h.refs_of_extra hp (owed hex)
    refine ih hfree (fun f hf => hframe f (mem_cons_of_mem _ hf)) hex' ?_
    exact Memory.coherent_free hb _ (refcount_ne_zero hused)

/-- `free_page_directory` takes an address space away and gives back exactly what it held. -/
theorem freePageDirectory (hpd : pd ∈ dirs) :
    Ledger (m.freePageDirectory pd) (dirs \ {pd}) extra := by
  rw [h.freePageDirectory_eq hpd]
  have hfree := (h.detach hpd).freeAll (m.subtree 4 0 pd) (fun _ => h.frame_of_subtree hpd)
    (fun f _ => Nat.le_add_left _ _)
  simpa only [Nat.add_sub_cancel] using hfree

/-- A frame that keeps a reference loses one for each place the address space held it. -/
theorem refs_release (hpd : pd ∈ dirs) {f : Ptr} (hf : IsFrame f)
    (hlt : (m.subtree 4 0 pd).count f < m.refs f) :
    (m.freeAll (m.subtree 4 0 pd)).refs f = m.refs f - (m.subtree 4 0 pd).count f :=
  (h.detach hpd).refs_freeAll _ (fun _ => h.frame_of_subtree hpd) (fun _ _ => Nat.le_add_left _ _)
    hf hlt

/-- What stays mapped keeps its references, or has fewer. -/
theorem refs_freePageDirectory (hpd : pd ∈ dirs) {f : Ptr} (hf : IsFrame f)
    (hpin : m.pinned f = false) : (m.freePageDirectory pd).refs f ≤ m.refs f := by
  have hafter := (h.freePageDirectory hpd).counted f hf (by
    rw [h.freePageDirectory_eq hpd, freeAll_pinned, hpin])
  have hbefore := h.counted f hf hpin
  have hsub : (m.freePageDirectory pd).holders (dirs \ {pd}) f ⊆ m.holders dirs f := by
    rintro x ⟨hx, hat⟩
    refine ⟨hx.1, ?_⟩
    rwa [h.freePageDirectory_eq hpd, freeAll_frameAt] at hat
  have hle := add_le_add_left (Set.encard_le_encard hsub) (extra f : ℕ∞)
  rw [hafter, hbefore] at hle
  exact_mod_cast hle

end

end Ledger

end Nyx.Paging
