import Nyx.Compositor.Windows
import Nyx.Lib.Run

/-! What is clicked is what is seen, as long as focusing raises.

`window_focus` gives a window the `z_order` 10 more than the number of windows. Another may have
that one, or a greater one from when there were more windows. Where this does not happen
(`Raises`) the windows on the screen have different `z_order`s (`Stacked`), a focused window is
painted last, and a click goes to the window painted last at its point. -/
namespace Nyx.Compositor
open Lib Function Option

namespace Desktop

/-- The windows on the screen have different `z_order`s. -/
def Stacked (s : Desktop) : Prop := ∀ i ∈ s.displayed, ∀ j ∈ s.displayed, s.zOf i = s.zOf j → i = j

/-- Focusing this window raises it above the others on the screen. -/
def Raises (s : Desktop) (id : Int) : Prop :=
  ∀ i ∈ s.findWindow id, i ∈ s.displayed → ∀ j ∈ s.displayed, j ≠ i → s.zOf j < s.windowCount + 10

/-! ### One call -/

section
variable {s s' : Desktop} {id : Int} {x y w h : BitVec 32} {granted : Bool} {i j slot : Slot}

theorem mem_displayed : i ∈ s.displayed ↔ s.shown i = true := by
  rw [displayed, List.mem_filter]
  exact and_iff_right (List.mem_finRange i)

/-- `window_focus` changes no window on the screen but for the focus marks and one `z_order`. -/
theorem windowFocus_cases (s : Desktop) (id : Int) :
    s.windowFocus id = s ∧ (∀ slot ∈ s.findWindow id, s.shown slot = false) ∨
      ∃ slot ∈ s.findWindow id, (∀ i, (s.windowFocus id).shown i = s.shown i) ∧
        (s.windowFocus id).zOf slot = s.windowCount + 10 ∧
        ∀ i, i ≠ slot → (s.windowFocus id).zOf i = s.zOf i := by
  unfold windowFocus
  cases hf : s.findWindow id with
  | none => exact .inl ⟨rfl, fun _ hx => nomatch hx⟩
  | some slot =>
    dsimp only
    split
    case isFalse hdown =>
      refine .inl ⟨rfl, fun i hi => ?_⟩
      obtain rfl : slot = i := Option.some.inj hi
      rw [shown]
      cases hw : s.windows slot with
      | none => rfl
      | some win =>
        rw [hw, any_some] at hdown
        rw [any_some, Bool.eq_false_iff.mpr hdown, Bool.false_and]
    case isTrue hup =>
      obtain ⟨front, hfront⟩ : ∃ front, s.windows slot = some front := by
        refine ne_none_iff_exists'.mp fun hnone => ?_
        rw [hnone] at hup
        exact nomatch hup
      refine .inr ⟨slot, rfl, fun i => ?_, ?_, fun i hi => ?_⟩
      · simp only [shown, any_map]
        refine congrArg (Option.any · (s.windows i)) (funext fun win => ?_)
        split_ifs
        all_goals rfl
      · simp only [zOf, hfront, map_some, if_pos, getD_some]
      · simp only [zOf, map_map, if_neg hi]
        refine congrArg (fun f => (Option.map f (s.windows i)).getD 0) (funext fun win => ?_)
        dsimp only [Function.comp]
        split_ifs
        all_goals rfl

/-- Focusing a window makes the stack strict, if only the `z_order` of that window was in the
way. -/
theorem stacked_windowFocus (hs : ∀ i ∈ s.displayed, ∀ j ∈ s.displayed, i ∉ s.findWindow id →
      j ∉ s.findWindow id → s.zOf i = s.zOf j → i = j) (hr : s.Raises id) :
    (s.windowFocus id).Stacked := by
  rcases s.windowFocus_cases id with ⟨hsame, hdown⟩ | ⟨slot, hslot, hshown, htop, hother⟩
  · have hnot (i : Slot) (hi : i ∈ s.displayed) : i ∉ s.findWindow id := fun hf =>
      nomatch (hdown i hf).symm.trans (mem_displayed.mp hi)
    rw [hsame]
    exact fun i hi j hj => hs i hi j hj (hnot i hi) (hnot j hj)
  have hlower {i : Slot} (hi : s.shown i = true) (hslotShown : s.shown slot = true)
      (hne : i ≠ slot) : (s.windowFocus id).zOf i < s.windowCount + 10 := by
    rw [hother i hne]
    exact hr slot hslot (mem_displayed.mpr hslotShown) i (mem_displayed.mpr hi) hne
  have hnot {i : Slot} (hi : i ≠ slot) : i ∉ s.findWindow id := fun hf =>
    hi (Option.some.inj (hf.symm.trans hslot))
  intro i hi j hj hij
  rw [mem_displayed, hshown] at hi hj
  by_cases hi' : i = slot
  · by_cases hj' : j = slot
    · rw [hi', hj']
    subst hi'
    have hlt := hlower hj hi hj'
    rw [← hij, htop] at hlt
    exact absurd hlt (lt_irrefl _)
  · by_cases hj' : j = slot
    · subst hj'
      have hlt := hlower hi hj hi'
      rw [hij, htop] at hlt
      exact absurd hlt (lt_irrefl _)
    · rw [hother i hi', hother j hj'] at hij
      exact hs i (mem_displayed.mpr hi) j (mem_displayed.mpr hj) (hnot hi') (hnot hj') hij

theorem drawOrder_windowFocus (hr : s.Raises id) (hslot : slot ∈ s.findWindow id)
    (hshown : slot ∈ s.displayed) : (s.windowFocus id).drawOrder.getLast? = some slot := by
  rcases s.windowFocus_cases id with ⟨-, hdown⟩ | ⟨slot', hslot', hshown', htop, hother⟩
  · exact nomatch (hdown slot hslot).symm.trans (mem_displayed.mp hshown)
  obtain rfl : slot = slot' := Option.some.inj (hslot.symm.trans hslot')
  refine insertUp_getLast ?_ fun i hi hne => ?_
  · rw [mem_displayed, hshown']
    exact mem_displayed.mp hshown
  · rw [mem_displayed, hshown'] at hi
    rw [hother i hne, htop]
    exact hr slot hslot hshown i (mem_displayed.mpr hi) hne

/-- A click goes to the window painted last at its point. -/
theorem clickOrder_find (hs : s.Stacked) (mx my : BitVec 32) :
    s.clickOrder.find? (s.hitAt mx my) = (s.drawOrder.filter (s.hitAt mx my)).getLast? := by
  rw [clickOrder, exchangeDown_eq hs, drawOrder, ← List.head?_filter, List.filter_reverse,
    List.head?_reverse]

/-! ### The other calls -/

/-- Ids are new. -/
def Fresh (s : Desktop) : Prop := ∀ i, ∀ win ∈ s.windows i, win.id < s.nextId

theorem fresh_windowFocus (hs : s.Fresh) : (s.windowFocus id).Fresh := by
  unfold windowFocus
  split
  · exact hs
  split
  case isFalse => exact hs
  case isTrue =>
    intro i win hwin
    obtain ⟨old, hold, rfl⟩ := map_eq_some_iff.mp hwin
    have hid := hs i old hold
    split_ifs
    all_goals exact hid

theorem newWindow_id (s : Desktop) (x y w h : BitVec 32) :
    (s.newWindow x y w h).id = s.nextId := rfl

/-- A new window is the only one with its id, and it is on the screen or not as it was made. -/
theorem place_cases (hs : s.Fresh) (hp : s.place x y w h granted = some s') :
    ∃ slot, s'.findWindow s.nextId = some slot ∧ s.windows slot = none ∧
      s'.windows = update s.windows slot (some (s.newWindow x y w h)) ∧
      s'.nextId = s.nextId + 1 ∧ s'.currentWorkspace = s.currentWorkspace := by
  unfold place at hp
  split at hp
  · exact nomatch hp
  cases hfree : (List.finRange maxWindows).find? fun i => (s.windows i).isNone with
  | none =>
    rw [hfree] at hp
    exact nomatch hp
  | some slot =>
    rw [hfree] at hp
    dsimp only at hp
    split at hp
    case isFalse => exact nomatch hp
    obtain rfl := Option.some.inj hp
    refine ⟨slot, ?_, by simpa using List.find?_some hfree, rfl, rfl, rfl⟩
    have hself : ((update s.windows slot (some (s.newWindow x y w h)) slot).any
        fun win => win.id == s.nextId) = true := by
      rw [update_self, any_some, newWindow_id]
      exact beq_self_eq_true _
    unfold findWindow
    cases hfind : (List.finRange maxWindows).find? fun i => (update s.windows slot
        (some (s.newWindow x y w h)) i).any fun win => win.id == s.nextId with
    | none => exact absurd hself (List.find?_eq_none.mp hfind slot (List.mem_finRange slot))
    | some i =>
      by_contra hne
      have hi : i ≠ slot := fun hx => hne (congrArg some hx)
      -- the other windows have smaller ids
      have hany := List.find?_some hfind
      rw [update_of_ne hi, any_eq_true] at hany
      obtain ⟨win, hwin, hid⟩ := hany
      exact absurd (hs i win hwin) (by rw [beq_iff_eq.mp hid]; exact lt_irrefl _)

theorem fresh_place (hs : s.Fresh) (hp : s.place x y w h granted = some s') : s'.Fresh := by
  obtain ⟨slot, -, -, hwindows, hnext, -⟩ := place_cases hs hp
  intro i win hwin
  rw [hwindows] at hwin
  rw [hnext]
  by_cases hi : i = slot
  · rw [hi, update_self, mem_some_iff] at hwin
    rw [← hwin, newWindow_id]
    exact Int.lt_succ s.nextId
  · rw [update_of_ne hi] at hwin
    exact (hs i win hwin).trans (Int.lt_succ s.nextId)

/-- The new window starts with a `z_order` that another one may have; its focus takes it away. -/
theorem stacked_place (hs : s.Stacked) (hf : s.Fresh) (hp : s.place x y w h granted = some s')
    (hr : s'.Raises s.nextId) : (s'.windowFocus s.nextId).Stacked := by
  obtain ⟨slot, hfind, -, hwindows, -, hws⟩ := place_cases hf hp
  have hold {i : Slot} (hi : i ∉ s'.findWindow s.nextId) :
      (i ∈ s'.displayed ↔ i ∈ s.displayed) ∧ s'.zOf i = s.zOf i := by
    have hne : i ≠ slot := by
      rintro rfl
      exact hi hfind
    rw [mem_displayed, mem_displayed, shown, shown, zOf, zOf, hwindows, hws, update_of_ne hne]
    exact ⟨Iff.rfl, rfl⟩
  refine stacked_windowFocus (fun i hi j hj hi' hj' hij => ?_) hr
  rw [(hold hi').2, (hold hj').2] at hij
  exact hs i ((hold hi').1.mp hi) j ((hold hj').1.mp hj) hij

theorem remove_cases (hr : s.remove id = some s') : ∃ slot, s'.nextId = s.nextId ∧
    s'.currentWorkspace = s.currentWorkspace ∧ s'.windows = update s.windows slot none := by
  obtain ⟨slot, -, rfl⟩ := map_eq_some_iff.mp hr
  exact ⟨slot, rfl, rfl, rfl⟩

theorem fresh_remove (hs : s.Fresh) (hr : s.remove id = some s') : s'.Fresh := by
  obtain ⟨slot, hnext, -, hwindows⟩ := remove_cases hr
  intro i win hwin
  rw [hwindows] at hwin
  rw [hnext]
  by_cases hi : i = slot
  · rw [hi, update_self] at hwin
    exact nomatch hwin
  rw [update_of_ne hi] at hwin
  exact hs i win hwin

theorem stacked_remove (hs : s.Stacked) (hr : s.remove id = some s') : s'.Stacked := by
  obtain ⟨slot, -, hws, hwindows⟩ := remove_cases hr
  have hne (i : Slot) (hi : s'.shown i = true) : i ≠ slot := by
    rintro rfl
    rw [shown, hwindows, update_self] at hi
    exact nomatch hi
  have hold (i : Slot) (hi : s'.shown i = true) : s.shown i = true ∧ s'.zOf i = s.zOf i := by
    have hkept : s'.windows i = s.windows i := by rw [hwindows, update_of_ne (hne i hi)]
    rw [shown, hkept, hws] at hi
    rw [zOf, zOf, hkept]
    exact ⟨hi, rfl⟩
  intro i hi j hj hij
  rw [mem_displayed] at hi hj
  rw [(hold i hi).2, (hold j hj).2] at hij
  exact hs i (mem_displayed.mpr (hold i hi).1) j (mem_displayed.mpr (hold j hj).1) hij

end

end Desktop

/-! ### Runs -/

/-- The calls of the rest of the system. Whether there is memory for a window is `granted`. -/
inductive Op
  | create (x y w h : BitVec 32) (granted : Bool)
  | destroy (id : Int)
  | focus (id : Int)

namespace Desktop

variable (s : Desktop)

def step : Op → Desktop
  | .create x y w h granted => s.windowCreate x y w h granted
  | .destroy id => s.windowDestroy id
  | .focus id => s.windowFocus id

/-- The calls of `window_focus` that an operation makes: the desktop they find, and the id. -/
def focusCalls : Op → List (Desktop × Int)
  | .create x y w h granted => (s.place x y w h granted).toList.map fun s' => (s', s.nextId)
  | .destroy id =>
    if s.focusedId = id then
      (s.remove id).toList.flatMap fun s' => s'.highest.toList.map fun best => (s', s'.idOf best)
    else []
  | .focus id => [(s, id)]

/-- Every `window_focus` raises its window. -/
def Lifts (op : Op) : Prop := ∀ c ∈ s.focusCalls op, c.1.Raises c.2

instance (s : Desktop) (id : Int) : Decidable (s.Raises id) :=
  inferInstanceAs (Decidable (∀ i ∈ s.findWindow id, i ∈ s.displayed →
    ∀ j ∈ s.displayed, j ≠ i → s.zOf j < s.windowCount + 10))

instance (s : Desktop) (op : Op) : Decidable (s.Lifts op) :=
  inferInstanceAs (Decidable (∀ c ∈ s.focusCalls op, c.1.Raises c.2))

section
variable {s : Desktop} {op : Op}

theorem stacked_step (h : s.Stacked ∧ s.Fresh) (hl : s.Lifts op) :
    (s.step op).Stacked ∧ (s.step op).Fresh := by
  obtain ⟨hs, hf⟩ := h
  cases op with
  | create x y w h granted =>
    rw [step, windowCreate]
    rw [Lifts, focusCalls] at hl
    cases hp : s.place x y w h granted with
    | none => exact ⟨hs, hf⟩
    | some s' =>
      rw [hp] at hl
      exact ⟨stacked_place hs hf hp (hl (s', s.nextId) (.head _)), fresh_windowFocus (fresh_place hf hp)⟩
  | destroy id =>
    rw [step, windowDestroy]
    rw [Lifts, focusCalls] at hl
    cases hr : s.remove id with
    | none => exact ⟨hs, hf⟩
    | some s' =>
      have hs' := stacked_remove hs hr
      have hf' := fresh_remove hf hr
      rw [hr] at hl
      dsimp only
      split
      case isFalse => exact ⟨hs', hf'⟩
      case isTrue hid =>
        rw [if_pos hid] at hl
        rw [focusNextWindow]
        cases hb : s'.highest with
        | none => exact ⟨hs', hf'⟩
        | some best =>
          have hraise : s'.Raises (s'.idOf best) := hl (s', s'.idOf best) (by simp [hb])
          exact ⟨stacked_windowFocus (fun i hi j hj _ _ => hs' i hi j hj) hraise,
            fresh_windowFocus hf'⟩
  | focus id =>
    exact ⟨stacked_windowFocus (fun i hi j hj _ _ => hs i hi j hj) (hl (s, id) (.head _)),
      fresh_windowFocus hf⟩

/-- If every focus raises its window: a window on the screen that is focused is painted last, and
at every point a click finds the window that was painted last there. -/
theorem click_what_is_seen {fbWidth fbHeight : BitVec 32} {ops : List Op}
    (h : Admissible step Lifts (init fbWidth fbHeight) ops) :
    let s := run step (init fbWidth fbHeight) ops
    (∀ id, s.Raises id → ∀ i ∈ s.findWindow id, i ∈ s.displayed →
        (s.windowFocus id).drawOrder.getLast? = some i) ∧
      ∀ mx my, s.clickOrder.find? (s.hitAt mx my) =
        (s.drawOrder.filter (s.hitAt mx my)).getLast? := by
  intro s
  have hstart : (init fbWidth fbHeight).Stacked ∧ (init fbWidth fbHeight).Fresh :=
    ⟨(fun i hi => nomatch mem_displayed.mp hi), fun i win hwin => nomatch hwin⟩
  have hend : s.Stacked ∧ s.Fresh :=
    run_invariant (P := fun s => s.Stacked ∧ s.Fresh) (fun _ _ => stacked_step) _ ops hstart h
  exact ⟨fun id hr i hi hshown => drawOrder_windowFocus hr hi hshown, clickOrder_find hend.1⟩

end

def twoWindows : List Op :=
  [.create 100#32 100#32 400#32 300#32 true, .create 200#32 150#32 400#32 300#32 true]

/-- A click on both of them goes to the second, which was painted last. -/
theorem click_what_is_seen_two :
    let s := run step (init 1024#32 768#32) twoWindows
    Admissible step Lifts (init 1024#32 768#32) twoWindows ∧
      s.clickOrder.find? (s.hitAt 300#32 200#32) = some 1 := by
  intro s
  have hrun : Admissible step Lifts (init 1024#32 768#32) twoWindows ∧
      (s.drawOrder.filter (s.hitAt 300#32 200#32)).getLast? = some 1 := by decide +kernel
  exact ⟨hrun.1, ((click_what_is_seen hrun.1).2 300#32 200#32).trans hrun.2⟩

/-- With the focus given back to the first, both have the `z_order` 12: the second is still painted
last, and a click on both goes to the first. -/
theorem focus_keeps_window_below :
    let s := run step (init 1024#32 768#32) (twoWindows ++ [.focus 100])
    s.findWindow 100 = some 0 ∧ s.focusedId = 100 ∧ s.drawOrder = [0, 1] ∧
      s.clickOrder.find? (s.hitAt 300#32 200#32) = some 0 ∧
      (s.drawOrder.filter (s.hitAt 300#32 200#32)).getLast? = some 1 := by
  decide +kernel

end Desktop

end Nyx.Compositor
