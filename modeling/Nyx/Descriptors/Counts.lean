import Nyx.Descriptors.Deaths
import Nyx.Lib.Holders

/-! The reference counts of pipes.

`Due hs` says that the counts of every pipe are the slots that name its ends together with the
handles `hs` that a system call holds on to: one taken out of its slot and not closed yet, or
made and not yet in one. Each part of a call moves, makes or closes a handle. -/
namespace Nyx.Descriptors
open Nyx.Process Nyx.Process.Kernel Nyx.Lib Function List

namespace Pipe
variable {p : Pipe}

/-- The count of an end. -/
def refs (p : Pipe) (isWrite : Bool) : Nat := if isWrite then p.writeRefs else p.readRefs

structure SameCounts (p q : Pipe) : Prop where
  used : q.used = p.used
  readRefs : q.readRefs = p.readRefs
  writeRefs : q.writeRefs = p.writeRefs

def Marked (p : Pipe) : Prop := p.used = true ↔ p.readRefs ≠ 0 ∨ p.writeRefs ≠ 0

theorem Marked.used_of_refs (h : p.Marked) {isWrite : Bool} (hr : p.refs isWrite ≠ 0) :
    p.used = true := by
  cases isWrite with
  | false => exact h.mpr (.inl hr)
  | true => exact h.mpr (.inr hr)

theorem settle_marked (hused : p.used = true) :
    p.settle.Marked ∧ ∀ w, p.settle.refs w = p.refs w := by
  simp only [settle]
  split
  case isTrue hz =>
    refine ⟨iff_of_false Bool.false_ne_true ?_, fun _ => rfl⟩
    exact not_or.mpr ⟨not_not.mpr hz.1, not_not.mpr hz.2⟩
  case isFalse hz => exact ⟨iff_of_true hused (Decidable.not_and_iff_or_not.mp hz), fun _ => rfl⟩

theorem dropRef_counts (hused : p.used = true) (isWrite w : Bool) : (p.dropRef isWrite).1.Marked ∧
      (p.dropRef isWrite).1.refs w = p.refs w - if w = isWrite then 1 else 0 := by
  cases isWrite with
  | false =>
    obtain ⟨hmarked, hrefs⟩ := settle_marked (p := {p with readRefs := p.readRefs - 1}) hused
    refine ⟨hmarked, (hrefs w).trans ?_⟩
    cases w <;> rfl
  | true =>
    simp only [dropRef, if_true]
    split
    case isTrue hz =>
      obtain ⟨hmarked, hrefs⟩ := settle_marked (p := {p with writeRefs := 0, readerWaiter := 0}) hused
      refine ⟨hmarked, (hrefs w).trans ?_⟩
      cases w with
      | false => rfl
      | true => exact hz.symm
    case isFalse =>
      obtain ⟨hmarked, hrefs⟩ := settle_marked (p := {p with writeRefs := p.writeRefs - 1}) hused
      refine ⟨hmarked, (hrefs w).trans ?_⟩
      cases w <;> rfl

theorem addRef_counts (hused : p.used = true) (isWrite w : Bool) : (p.addRef isWrite).Marked ∧
      (p.addRef isWrite).refs w = p.refs w + if w = isWrite then 1 else 0 := by
  cases isWrite with
  | false => exact ⟨iff_of_true hused (.inl (Nat.succ_ne_zero _)), by cases w <;> rfl⟩
  | true => exact ⟨iff_of_true hused (.inr (Nat.succ_ne_zero _)), by cases w <;> rfl⟩

end Pipe

namespace Pipes
variable (ps : Pipes)

def release (h : BitVec 32) : Pipes :=
  if isPipe h then (ps.pipeCloseEnd (ufdPipeId h) (ufdPipeIsWrite h)).1 else ps

def Names (h : BitVec 32) (id : Fin maxPipes) : Prop :=
  ufdPipeId h = BitVec.ofNat 32 id.val ∧ (ps id).used = true

instance (h : BitVec 32) (id : Fin maxPipes) : Decidable (ps.Names h id) :=
  inferInstanceAs (Decidable (_ ∧ _))

theorem lookup_update (h : BitVec 32) (f : Pipe → Pipe) (id : Fin maxPipes) :
    (match ps.lookup (ufdPipeId h) with
      | none => ps
      | some i => update ps i (f (ps i))) id =
      if ps.Names h id then f (ps id) else ps id := by
  have hiff : ps.lookup (ufdPipeId h) = some id ↔ ps.Names h id := ps.lookup_eq (ufdPipeId h) id
  cases hl : ps.lookup (ufdPipeId h) with
  | none =>
    rw [if_neg]
    exact fun hn => nomatch hl.symm.trans (hiff.mpr hn)
  | some i =>
    rw [hl, Option.some.injEq] at hiff
    dsimp only
    rw [update_apply]
    rcases eq_or_ne id i with rfl | hne
    · rw [if_pos rfl, if_pos (hiff.mp rfl)]
    · rw [if_neg hne, if_neg fun hn => hne (hiff.mpr hn).symm]

theorem pipeIncref_eq (h : BitVec 32) (w : Bool) (id : Fin maxPipes) :
    ps.pipeIncref (ufdPipeId h) w id = if ps.Names h id then (ps id).addRef w else ps id :=
  ps.lookup_update h (·.addRef w) id

theorem release_eq {h : BitVec 32} (hp : isPipe h = true) (id : Fin maxPipes) : ps.release h id =
      if ps.Names h id then ((ps id).dropRef (ufdPipeIsWrite h)).1 else ps id := by
  rw [release, if_pos hp, ← ps.lookup_update h (fun p => (p.dropRef (ufdPipeIsWrite h)).1) id,
    pipeCloseEnd]
  cases ps.lookup (ufdPipeId h) <;> rfl

end Pipes

theorem isEnd_iff {h : BitVec 32} (hp : isPipe h = true) (id : Fin maxPipes) (w : Bool) :
    isEnd id w h = true ↔ ufdPipeId h = BitVec.ofNat 32 id.val ∧ w = ufdPipeIsWrite h := by
  simp only [isEnd, hp, Bool.true_and, Bool.and_eq_true, beq_iff_eq, eq_comm (a := w)]

theorem isEnd_make (i j : Fin maxPipes) (w b : Bool) :
    isEnd j w (ufdPipeMake i b) = decide (j = i ∧ w = b) := by
  revert i j w b
  decide

/-! ### Handles that are due -/

abbrev Slots := Nat → Fin procMaxFds → Option (BitVec 32)

def naming (slot : Slots) (id : Fin maxPipes) (isWrite : Bool) : Set (Nat × Fin procMaxFds) :=
  holders (Function.uncurry slot) (isEnd id isWrite)

structure Due (hs : List (BitVec 32)) (ps : Pipes) (slot : Slots) : Prop where
  counts : ∀ id w, ((ps id).refs w : ℕ∞) = (naming slot id w).encard + (hs.countP (isEnd id w) : ℕ)
  marked : ∀ id, (ps id).Marked

theorem uncurry_update (slot : Slots) (p : Nat) (i : Fin procMaxFds) (v : Option (BitVec 32)) :
    uncurry (update slot p (update (slot p) i v)) = update (uncurry slot) (p, i) v := by
  funext ⟨q, j⟩
  simp only [uncurry_apply_pair, update_apply, Prod.mk.injEq]
  rcases eq_or_ne q p with rfl | hq
  · simp [update_apply]
  · simp [hq]

/-- The free slots `l` of one table are filled. -/
theorem naming_fill {slot : Slots} {p : Nat} {l : List (Fin procMaxFds)} (hl : l.Nodup)
    (handle : Fin procMaxFds → BitVec 32) (hfree : ∀ i ∈ l, slot p i = none) (id : Fin maxPipes)
    (w : Bool) :
    (naming (update slot p fun i => if i ∈ l then some (handle i) else slot p i) id w).encard =
      (naming slot id w).encard + ((l.map handle).countP (isEnd id w) : ℕ) := by
  have hinj : Function.Injective (Prod.mk p : Fin procMaxFds → Nat × Fin procMaxFds) :=
    Prod.mk_right_injective p
  have hfill : uncurry (update slot p fun i =>
      if i ∈ l then some (handle i) else slot p i) =
        fill (uncurry slot) (fun x => handle x.2) (l.map (Prod.mk p)) := by
    funext ⟨q, j⟩
    rcases eq_or_ne q p with rfl | hq
    · simp only [uncurry_apply_pair, update_self, fill, mem_map_of_injective hinj]
    have hout : (q, j) ∉ l.map (Prod.mk p) := by
      intro hin
      obtain ⟨i, _, he⟩ := mem_map.mp hin
      exact hq (congrArg Prod.fst he).symm
    simp only [uncurry_apply_pair, update_of_ne hq, fill, if_neg hout]
  have hempty : ∀ x ∈ l.map (Prod.mk p), uncurry slot x = none := by
    intro x hx
    obtain ⟨i, hi, rfl⟩ := mem_map.mp hx
    exact hfree i hi
  rw [naming, naming, hfill, encard_fill _ (hl.map hinj) hempty, map_map]
  rfl

namespace Due
variable {hs : List (BitVec 32)} {ps : Pipes} {slot : Slots} {h : BitVec 32} {p : Nat}
  {i : Fin procMaxFds}

theorem perm {hs' : List (BitVec 32)} (hd : Due hs ps slot) (hp : hs.Perm hs') : Due hs' ps slot :=
  ⟨fun id w => hp.countP_eq (isEnd id w) ▸ hd.counts id w, hd.marked⟩

/-- A handle that is not a pipe end counts for nothing. -/
theorem cons_iff (hh : isPipe h = false) : Due (h :: hs) ps slot ↔ Due hs ps slot := by
  have hnot (id : Fin maxPipes) (w : Bool) : isEnd id w h = false := by
    rw [isEnd, hh]
    rfl
  constructor
  · refine fun hd => ⟨fun id w => ?_, hd.marked⟩
    have hc := hd.counts id w
    rwa [countP_cons_of_neg (by rw [hnot]; exact Bool.false_ne_true)] at hc
  · refine fun hd => ⟨fun id w => ?_, hd.marked⟩
    rw [countP_cons_of_neg (by rw [hnot]; exact Bool.false_ne_true)]
    exact hd.counts id w

theorem put (hd : Due (h :: hs) ps slot) (hfree : slot p i = none) :
    Due hs ps (update slot p (update (slot p) i (some h))) := by
  have hcell : uncurry slot (p, i) = none := hfree
  refine ⟨fun id w => ?_, hd.marked⟩
  rw [hd.counts id w, naming, naming, uncurry_update, encard_put hcell, countP_cons]
  push_cast
  rw [add_assoc, add_comm (if isEnd id w h = true then 1 else 0 : ℕ∞)]

theorem take (hd : Due hs ps slot) (hin : slot p i = some h) :
    Due (h :: hs) ps (update slot p (update (slot p) i none)) := by
  have hcell : uncurry slot (p, i) = some h := hin
  refine ⟨fun id w => ?_, hd.marked⟩
  rw [hd.counts id w, naming, naming, uncurry_update, encard_clear hcell, countP_cons]
  push_cast
  rw [add_assoc, add_comm (if isEnd id w h = true then 1 else 0 : ℕ∞)]

theorem live_of_mem (hd : Due hs ps slot) (hh : h ∈ hs) {id : Fin maxPipes} {w : Bool}
    (he : isEnd id w h = true) : (ps id).refs w ≠ 0 := by
  intro h0
  have hc := hd.counts id w
  rw [h0, Nat.cast_zero, eq_comm, add_eq_zero] at hc
  have hpos := countP_pos_iff.mpr ⟨h, hh, he⟩
  rw [Nat.cast_eq_zero.mp hc.2] at hpos
  exact Nat.lt_irrefl _ hpos

theorem live_of_slot (hd : Due hs ps slot) (hin : slot p i = some h) {id : Fin maxPipes} {w : Bool}
    (he : isEnd id w h = true) : (ps id).refs w ≠ 0 := live_of_mem (hd.take hin) (.head hs) he

/-- A handle is closed. -/
theorem release (hd : Due (h :: hs) ps slot) : Due hs (ps.release h) slot := by
  cases hp : isPipe h with
  | false =>
    rw [Pipes.release, hp]
    exact (cons_iff hp).mp hd
  | true =>
    -- a handle that is due is counted, so the pipe it names is in use
    have hnames {id : Fin maxPipes} {w : Bool} (he : isEnd id w h = true) : ps.Names h id :=
      ⟨((isEnd_iff hp id w).mp he).1, (hd.marked id).used_of_refs (hd.live_of_mem (.head hs) he)⟩
    refine ⟨fun id w => ?_, fun id => ?_⟩
    · have hc := hd.counts id w
      rw [countP_cons] at hc
      rw [Pipes.release_eq ps hp]
      split
      case isTrue hn =>
        rw [(Pipe.dropRef_counts hn.2 _ w).2]
        refine counter_sub ?_
        rw [hc]
        congr 3
        exact if_congr (by rw [isEnd_iff hp, and_iff_right hn.1]) rfl rfl
      case isFalse hn =>
        rw [hc, if_neg fun he => hn (hnames he), Nat.add_zero]
    · rw [Pipes.release_eq ps hp]
      split
      case isTrue hn => exact (Pipe.dropRef_counts hn.2 _ true).1
      case isFalse => exact hd.marked id

/-- A reference is taken to a handle that is counted already. -/
theorem incref (hd : Due hs ps slot) (hp : isPipe h = true)
    (hlive : ∀ id w, isEnd id w h = true → (ps id).refs w ≠ 0) :
    Due (h :: hs) (ps.pipeIncref (ufdPipeId h) (ufdPipeIsWrite h)) slot := by
  refine ⟨fun id w => ?_, fun id => ?_⟩
  · have hc := hd.counts id w
    rw [Pipes.pipeIncref_eq, countP_cons]
    split
    case isTrue hn =>
      rw [(Pipe.addRef_counts hn.2 _ w).2]
      have hsame : (if isEnd id w h = true then 1 else 0) = if w = ufdPipeIsWrite h then 1 else 0 :=
        if_congr (by rw [isEnd_iff hp, and_iff_right hn.1]) rfl rfl
      rw [hsame]
      push_cast
      rw [hc, add_assoc]
    case isFalse hn =>
      have hnot : ¬ isEnd id w h = true := fun he =>
        hn ⟨((isEnd_iff hp id w).mp he).1, (hd.marked id).used_of_refs (hlive id w he)⟩
      rw [if_neg hnot, Nat.add_zero]
      exact hc
  · rw [Pipes.pipeIncref_eq]
    split
    case isTrue hn => exact (Pipe.addRef_counts hn.2 _ true).1
    case isFalse => exact hd.marked id

theorem make (hd : Due hs ps slot) {ps' : Pipes} {id : Fin maxPipes}
    (hnew : ps.pipeNew = (ps', some id)) :
    Due (ufdPipeMake id false :: ufdPipeMake id true :: hs) ps' slot := by
  simp only [Pipes.pipeNew] at hnew
  split at hnew
  · cases hnew
  case h_2 i hi =>
    obtain ⟨rfl, he⟩ := Prod.mk.inj hnew
    have hid := Option.some.inj he
    subst hid
    have hfree : (ps i).used = false := by simpa using find?_some hi
    have hzero (w : Bool) : (ps i).refs w = 0 := by
      by_contra hr
      exact absurd ((hd.marked i).used_of_refs hr) (hfree ▸ nofun)
    refine ⟨fun j w => ?_, fun j => ?_⟩
    · have hc := hd.counts j w
      simp only [countP_cons, isEnd_make, decide_eq_true_eq]
      rcases eq_or_ne j i with rfl | hji
      · rw [update_self]
        rw [hzero, Nat.cast_zero, eq_comm, add_eq_zero] at hc
        rw [hc.1, Nat.cast_eq_zero.mp hc.2]
        cases w <;> simp [Pipe.refs]
      · simp only [update_of_ne hji, hji, false_and, if_false, Nat.add_zero]
        exact hc
    · rcases eq_or_ne j i with rfl | hji
      · rw [update_self]
        exact iff_of_true rfl (.inl Nat.one_ne_zero)
      · rw [update_of_ne hji]
        exact hd.marked j

theorem of_pipes (hd : Due hs ps slot) {ps' : Pipes}
    (hsame : ∀ id, Pipe.SameCounts (ps id) (ps' id)) : Due hs ps' slot := by
  refine ⟨fun id w => ?_, fun id => ?_⟩
  · have hrefs : (ps' id).refs w = (ps id).refs w := by
      rw [Pipe.refs, Pipe.refs, (hsame id).readRefs, (hsame id).writeRefs]
    rw [hrefs]
    exact hd.counts id w
  · rw [Pipe.Marked, (hsame id).used, (hsame id).readRefs, (hsame id).writeRefs]
    exact hd.marked id

/-- The slots `l` of a table are emptied. -/
theorem takes (hd : Due hs ps slot) {l : List (Fin procMaxFds)} (hl : l.Nodup)
    {handle : Fin procMaxFds → BitVec 32} (hin : ∀ i ∈ l, slot p i = some (handle i)) :
    Due (l.map handle ++ hs) ps (update slot p fun i => if i ∈ l then none else slot p i) := by
  generalize hcleared : update slot p _ = cleared
  have hp (i : Fin procMaxFds) : cleared p i = if i ∈ l then none else slot p i := by
    rw [← hcleared, update_self]
  have hback : slot = update cleared p fun i =>
      if i ∈ l then some (handle i) else cleared p i := by
    funext q
    rcases eq_or_ne q p with rfl | hq
    · rw [update_self]
      funext i
      split
      case isTrue hi => exact hin i hi
      case isFalse hi => rw [hp, if_neg hi]
    · rw [update_of_ne hq, ← hcleared, update_of_ne hq]
  have hempty : ∀ i ∈ l, cleared p i = none := fun i hi => by rw [hp, if_pos hi]
  refine ⟨fun id w => ?_, hd.marked⟩
  rw [hd.counts id w, congrArg (naming · id w) hback, naming_fill hl handle hempty, countP_append]
  push_cast
  rw [add_assoc]

/-- The slots of a table without descriptors are filled. -/
theorem puts {l : List (Fin procMaxFds)} {handle : Fin procMaxFds → BitVec 32}
    (hd : Due (l.map handle ++ hs) ps slot) (hl : l.Nodup) (hfree : ∀ i, slot p i = none) :
    Due hs ps (update slot p fun i => if i ∈ l then some (handle i) else none) := by
  have hfill (id : Fin maxPipes) (w : Bool) := naming_fill hl handle (fun i _ => hfree i) id w
  simp only [hfree] at hfill
  refine ⟨fun id w => ?_, hd.marked⟩
  rw [hd.counts id w, hfill, countP_append]
  push_cast
  rw [add_assoc]

theorem releases : ∀ {closed : List (BitVec 32)} {ps : Pipes}, Due (closed ++ hs) ps slot →
    Due hs (closed.foldl Pipes.release ps) slot := by
  intro closed
  induction closed with
  | nil => exact fun hd => hd
  | cons h rest ih => exact fun hd => ih hd.release

/-- The handles of some slots get one more reference each. -/
theorem increfs {l : List (BitVec 32)} : ∀ {hs : List (BitVec 32)} {ps : Pipes}, Due hs ps slot →
      (∀ h ∈ l, isPipe h = true ∧ ∃ p i, slot p i = some h) →
        Due (l ++ hs) (l.foldl (fun ps h => ps.pipeIncref (ufdPipeId h) (ufdPipeIsWrite h)) ps)
          slot := by
  induction l with
  | nil => exact fun hd _ => hd
  | cons h rest ih =>
    intro hs ps hd hall
    obtain ⟨hp, p, i, hin⟩ := hall h (.head rest)
    have hone := hd.incref hp fun _ _ he => hd.live_of_slot hin he
    exact (ih hone fun h' hh' => hall h' (.tail h hh')).perm perm_middle

end Due
end Nyx.Descriptors
