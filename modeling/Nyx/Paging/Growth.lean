import Nyx.Paging.Entries

/-! Making a table: nothing that a process can see changes (`Grown`). -/
namespace Nyx.Paging
open Lib Machine

/-- `m'` is `m` with more tables, and perhaps an allocation refused on the way. -/
structure Grown (dirs : Set Ptr) (m m' : Machine) : Prop where
  leaf : ∀ pd ∈ dirs, ∀ v, m'.leaf pd v = m.leaf pd v
  kept : ∀ pd ∈ dirs, ∀ path f, m.frameAt pd path = some f → m'.frameAt pd path = some f
  tables : ∀ f, IsFrame f → m'.IsTable dirs f → m.IsTable dirs f ∨ m.refs f = 0
  refs : ∀ f, IsFrame f → m.refs f ≠ 0 → m'.refs f = m.refs f
  word : ∀ f, IsFrame f → m.refs f ≠ 0 → ¬ m.IsTable dirs f → m'.word f = m.word f
  free : ∀ f, IsFrame f → m'.refs f = 0 → m.refs f = 0 ∧ m'.word f = m.word f
  pinned : m'.pinned = m.pinned
  kernel : m'.kernelPml4 = m.kernelPml4
  events : ∃ n, m'.events = {m.events with nulls := m.events.nulls + n}

namespace Grown
variable {dirs : Set Ptr} {m m' m'' : Machine}

theorem refl (dirs : Set Ptr) (m : Machine) : Grown dirs m m where
  leaf _ _ _ := rfl
  kept _ _ _ _ h := h
  tables _ _ h := .inl h
  refs _ _ _ := rfl
  word _ _ _ _ := rfl
  free _ _ h := ⟨h, rfl⟩
  pinned := rfl
  kernel := rfl
  events := ⟨0, rfl⟩

theorem trans (h : Grown dirs m m') (h' : Grown dirs m' m'') : Grown dirs m m'' where
  leaf pd hpd v := by rw [h'.leaf pd hpd, h.leaf pd hpd]
  kept pd hpd path f hf := h'.kept pd hpd path f (h.kept pd hpd path f hf)
  tables f hf ht := by
    rcases h'.tables f hf ht with ht | hz
    · exact h.tables f hf ht
    by_cases hr : m.refs f = 0
    · exact .inr hr
    rw [h.refs f hf hr] at hz
    exact absurd hz hr
  refs f hf hr := by
    have hr' := h.refs f hf hr
    rw [h'.refs f hf (by rwa [hr']), hr']
  word f hf hr ht := by
    rw [h'.word f hf (by rwa [h.refs f hf hr]), h.word f hf hr ht]
    intro ht'
    rcases h.tables f hf ht' with hx | hx
    · exact ht hx
    · exact hr hx
  free f hf hz := by
    obtain ⟨hz', hw'⟩ := h'.free f hf hz
    obtain ⟨hz'', hw⟩ := h.free f hf hz'
    exact ⟨hz'', hw'.trans hw⟩
  pinned := h'.pinned.trans h.pinned
  kernel := h'.kernel.trans h.kernel
  events := by
    obtain ⟨n, hn⟩ := h.events
    obtain ⟨n', hn'⟩ := h'.events
    exact ⟨n + n', by rw [hn', hn, Nat.add_assoc]⟩

theorem of_refused (dirs : Set Ptr) (h : m.Refused m') : Grown dirs m m' := by
  have hrefs : m'.refs = m.refs := by
    funext p
    rw [Machine.refs, refcount, h.frames, Machine.refs, refcount]
  have hat : ∀ pd, m'.frameAt pd = m.frameAt pd := fun pd =>
    frameAt_congr fun _ _ _ _ => by rw [h.word]
  constructor
  case leaf => intro pd _ v; rw [Machine.leaf, Machine.leaf, hat, h.word]
  case kept => intro pd _ path f hf; rwa [hat]
  case tables =>
    rintro f _ ⟨pd, hpd, path, hlen, hf⟩
    exact .inl ⟨pd, hpd, path, hlen, by rwa [hat] at hf⟩
  case refs => intro f _ _; rw [hrefs]
  case word => intro f _ _ _; rw [h.word]
  case free => intro f _ hz; rw [hrefs] at hz; exact ⟨hz, by rw [h.word]⟩
  case pinned => funext p; rw [Machine.pinned, h.frames, Machine.pinned]
  case kernel => exact h.kernel
  case events => exact ⟨1, h.events⟩

end Grown

namespace Ledger
variable {m m' : Machine} {dirs : Set Ptr} {extra : Ptr → Nat} {pd t q : Ptr}
  {p : List (BitVec 9)} {i : BitVec 9}

/-- A freshly allocated table, cleared and linked. -/
theorem newTable (h : Ledger m dirs extra) (hpd : pd ∈ dirs) (hlen : p.length < 3)
    (ht : m.frameAt pd p = some t) (hi : p = [] → i ≠ higher) (hz : m.word t i = 0#64)
    (hq : m.Took m' q) :
    let m'' := (m'.fill q fun _ => 0#64).store t i (Paging.link q)
    Ledger m'' dirs extra ∧ Grown dirs m m'' ∧ m''.frameAt pd (i :: p) = some q := by
  intro m''
  have hex := h.extra_of_fresh hq.frame hq.fresh
  have h1 := h.took hq
  have hnot : ¬ m'.IsTable dirs q := h1.not_table (.inr (by simp [bump, hex]))
  have h2 := h1.fill hnot fun _ => 0#64
  have hword : ∀ f, m'.IsTable dirs f → (m'.fill q fun _ => 0#64).word f = m'.word f := fun f hf =>
    fill_ne fun he : f = q => hnot (he ▸ hf)
  have hat : ∀ pd' ∈ dirs, (m'.fill q fun _ => 0#64).frameAt pd' = m.frameAt pd' := by
    intro pd' hpd'
    rw [frameAt_eq hword hpd']
    exact frameAt_congr fun _ _ _ _ => by rw [hq.word]
  have hne : t ≠ q := by
    rintro rfl
    exact h.fresh hq.fresh hpd p ht
  have ht2 : (m'.fill q fun _ => 0#64).frameAt pd p = some t := by rw [hat pd hpd, ht]
  have hz2 : (m'.fill q fun _ => 0#64).word t i = 0#64 := by
    rw [fill_ne hne, hq.word, hz]
  have hqrefs : (m'.fill q fun _ => 0#64).refs q = 1 := by
    show m'.refs q = 1
    rw [hq.refs q hq.frame, if_pos rfl]
  have hqex : bump extra q q = 1 := by simp [bump, hex]
  have hqpin : (m'.fill q fun _ => 0#64).pinned q = false := by
    show m'.pinned q = false
    rw [hq.pinned, h.unpinned_of_fresh hq.frame hq.fresh]
  have hqzero : ∀ j, (m'.fill q fun _ => 0#64).word q j = 0#64 := fun j => by simp
  have hlink := fun {pd' : Ptr} (hpd' : pd' ∈ dirs) =>
    h2.frameAt_link hpd hlen ht2 hi hz2 hq.frame hqrefs hqex hqpin hqzero hpd'
  have hledger := h2.link hpd hlen ht2 hi hz2 hq.frame hqrefs hqex hqpin hqzero
  rw [drop_bump] at hledger
  have hnone : m.frameAt pd (i :: p) = none := by
    rw [frameAt_cons ht, child, hz, has_zero]
    simp
  refine ⟨hledger, ?_, by rw [hlink hpd, if_pos ⟨rfl, rfl⟩]⟩
  constructor
  case leaf =>
    intro pd' hpd' v
    rw [h2.leaf_link hpd hlen ht2 hi hz2 hq.frame hqrefs hqex hqpin hqzero hpd' v,
      leaf_eq_of_word hword hpd', Machine.leaf, Machine.leaf,
      frameAt_congr (m := m) (fun _ _ _ _ => by rw [hq.word]), hq.word]
  case kept =>
    intro pd' hpd' path f hf
    rw [hlink hpd', hat pd' hpd', if_neg, hf]
    rintro ⟨rfl, rfl⟩
    rw [hnone] at hf
    exact absurd hf (by simp)
  case tables =>
    rintro f _ ⟨pd', hpd', path, hlen', hf⟩
    rw [hlink hpd', hat pd' hpd'] at hf
    split at hf
    · exact .inr (Option.some.inj hf ▸ hq.fresh)
    · exact .inl ⟨pd', hpd', path, hlen', hf⟩
  case refs =>
    intro f hf hr
    show m'.refs f = m.refs f
    rw [hq.refs f hf, if_neg]
    rintro rfl
    exact hr hq.fresh
  case word =>
    intro f hf hr hnt
    have hfq : f ≠ q := by
      rintro rfl
      exact hr hq.fresh
    have hft : f ≠ t := by
      rintro rfl
      exact hnt (isTable hpd (by omega) ht)
    rw [store_page_ne hft, fill_ne hfq, hq.word]
  case free =>
    intro f hf hr
    have hr' : m'.refs f = 0 := hr
    rw [hq.refs f hf] at hr'
    split at hr'
    case isTrue => exact absurd hr' (by decide)
    case isFalse hfq =>
      have hft : f ≠ t := by
        rintro rfl
        exact h.held hpd ht hr'
      exact ⟨hr', by rw [store_page_ne hft, fill_ne hfq, hq.word]⟩
  case pinned => exact hq.pinned
  case kernel => exact hq.kernel
  case events => exact ⟨0, hq.events⟩

end Ledger

end Nyx.Paging
