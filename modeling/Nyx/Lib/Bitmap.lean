import Mathlib

/-! Bitmaps packed into machine words.

A bitmap is an array of `w`-bit words; position `p` is bit `p % w` of word `p / w`. The
operations are those of a C program with masks (`test`, `set`, `clear`), the number of set
positions below a bound (`count`, and `zeros` for the others), and the word scan that finds a
first set position with one `ctz` (`scan`). The lemmas say what each does to `test` and to
`count`, and that the scan finds the least set position below its bound. -/
namespace Nyx.Lib.Bitmap
open BitVec Finset

variable {w : Nat}

/-- `b[p / w] & (1 << (p % w))`, as a truth value. -/
def test (b : Nat → BitVec w) (p : Nat) : Bool := b (p / w) &&& (1#w <<< (p % w)) != 0#w

/-- `b[p / w] |= 1 << (p % w)`. -/
def set (b : Nat → BitVec w) (p : Nat) : Nat → BitVec w :=
  Function.update b (p / w) (b (p / w) ||| (1#w <<< (p % w)))

/-- `b[p / w] &= ~(1 << (p % w))`. -/
def clear (b : Nat → BitVec w) (p : Nat) : Nat → BitVec w :=
  Function.update b (p / w) (b (p / w) &&& ~~~(1#w <<< (p % w)))

/-- How many positions below `n` are set. -/
def count (b : Nat → BitVec w) (n : Nat) : Nat :=
  ((Finset.range n).filter (fun p => test b p = true)).card

/-! ### Single bits -/

theorem getLsbD_bit (i j : Nat) (hi : i < w) : (1#w <<< i).getLsbD j = decide (j = i) := by
  by_cases h : j = i
  · subst h
    simp [hi]
  simp only [getLsbD_shiftLeft, getLsbD_one, h, decide_false]
  by_cases hlt : j < i
  · simp [hlt]
  have : j - i ≠ 0 := by omega
  simp [this]

theorem and_bit_ne_zero (x : BitVec w) (i : Nat) (hi : i < w) :
    (x &&& (1#w <<< i) != 0#w) = x.getLsbD i := by
  cases hx : x.getLsbD i
  · rw [bne_eq_false_iff_eq]
    apply eq_of_getLsbD_eq
    intro j _
    rw [getLsbD_and, getLsbD_bit i j hi, getLsbD_zero]
    by_cases hj : j = i
    · rw [hj, hx, Bool.false_and]
    · simp [hj]
  · rw [bne_iff_ne]
    intro hz
    have := congrArg (fun y : BitVec w => y.getLsbD i) hz
    simp [getLsbD_bit i i hi, hx] at this

theorem test_eq (hw : 0 < w) (b : Nat → BitVec w) (p : Nat) :
    test b p = (b (p / w)).getLsbD (p % w) := and_bit_ne_zero _ _ (Nat.mod_lt p hw)

/-- A position is its word and its bit. -/
theorem position_eq (p q : Nat) : p = q ↔ p / w = q / w ∧ p % w = q % w := by
  constructor
  · rintro rfl
    exact ⟨rfl, rfl⟩
  · rintro ⟨hd, hm⟩
    rw [← Nat.div_add_mod p w, ← Nat.div_add_mod q w, hd, hm]

theorem test_set (hw : 0 < w) (b : Nat → BitVec w) (p q : Nat) :
    test (set b p) q = (decide (q = p) || test b q) := by
  rw [test_eq hw, test_eq hw, set]
  by_cases hd : q / w = p / w
  · rw [hd, Function.update_self, getLsbD_or, getLsbD_bit _ _ (Nat.mod_lt p hw), Bool.or_comm]
    congr 1
    simp [position_eq (w := w) q p, hd]
  · have hne : q ≠ p := fun h => hd (by rw [h])
    rw [Function.update_of_ne hd]
    simp [hne]

theorem test_clear (hw : 0 < w) (b : Nat → BitVec w) (p q : Nat) :
    test (clear b p) q = (!decide (q = p) && test b q) := by
  rw [test_eq hw, test_eq hw, clear]
  by_cases hd : q / w = p / w
  · have hlt : q % w < w := Nat.mod_lt q hw
    rw [hd, Function.update_self, getLsbD_and, getLsbD_not,
      getLsbD_bit _ _ (Nat.mod_lt p hw), Bool.and_comm]
    simp [position_eq (w := w) q p, hd, hlt]
  · have hne : q ≠ p := fun h => hd (by rw [h])
    rw [Function.update_of_ne hd]
    simp [hne]

/-! ### Counting -/

theorem count_set (hw : 0 < w) (b : Nat → BitVec w) {p n : Nat} (hp : p < n)
    (h : test b p = false) : count (set b p) n = count b n + 1 := by
  have hfilter : (range n).filter (fun q => test (set b p) q = true) =
      insert p ((range n).filter (fun q => test b q = true)) := by
    ext q
    simp only [mem_filter, mem_range, mem_insert, test_set hw, Bool.or_eq_true, decide_eq_true_eq]
    constructor
    · rintro ⟨hq, rfl | ht⟩
      · exact .inl rfl
      · exact .inr ⟨hq, ht⟩
    · rintro (rfl | ⟨hq, ht⟩)
      · exact ⟨hp, .inl rfl⟩
      · exact ⟨hq, .inr ht⟩
  rw [count, hfilter, card_insert_of_notMem (by simp [h]), count]

theorem count_clear (hw : 0 < w) (b : Nat → BitVec w) {p n : Nat} (hp : p < n)
    (h : test b p = true) : count (clear b p) n + 1 = count b n := by
  have hfilter : (range n).filter (fun q => test (clear b p) q = true) =
      ((range n).filter (fun q => test b q = true)).erase p := by
    ext q
    simp only [mem_filter, mem_range, mem_erase, test_clear hw,
      Bool.and_eq_true, Bool.not_eq_true', decide_eq_false_iff_not]
    tauto
  rw [count, hfilter, count]
  exact card_erase_add_one (by simp [hp, h])

variable (b : Nat → BitVec w)

theorem count_le (n : Nat) : count b n ≤ n := by
  simpa [count] using card_filter_le (range n) (fun p => test b p = true)

theorem count_pos_iff (n : Nat) : 0 < count b n ↔ ∃ p, p < n ∧ test b p = true := by
  rw [count, card_pos]
  constructor
  · rintro ⟨p, hp⟩
    simp only [mem_filter, mem_range] at hp
    exact ⟨p, hp⟩
  · rintro ⟨p, hp⟩
    exact ⟨p, by simpa using hp⟩

/-! ### Scanning -/

/-- Words `i`, `i + 1`, … of `words` many, as long as one starts below `n`: the first
one that is not zero yields its lowest set bit, unless that lies at or above `n`. -/
def scan (b : Nat → BitVec w) (n : Nat) : (words i : Nat) → Option Nat
  | 0, _ => none
  | words + 1, i =>
    if i * w < n then
      if b i != 0#w then
        let p := i * w + (b i).ctz.toNat
        if p ≥ n then none else some p
      else scan b n words (i + 1)
    else none

theorem test_word (hw : 0 < w) (b : Nat → BitVec w) (i j : Nat) (hj : j < w) :
    test b (i * w + j) = (b i).getLsbD j := by
  rw [test_eq hw, show (i * w + j) / w = i by rw [Nat.mul_comm, Nat.mul_add_div hw]; simp [hj],
    show (i * w + j) % w = j by rw [Nat.mul_comm, Nat.mul_add_mod, Nat.mod_eq_of_lt hj]]

/-- A zero word holds no set position. -/
theorem test_of_word_zero (hw : 0 < w) (b : Nat → BitVec w) (i q : Nat) (h : b i = 0#w)
    (hlo : i * w ≤ q) (hhi : q < (i + 1) * w) : test b q = false := by
  obtain ⟨j, rfl⟩ := Nat.exists_eq_add_of_le hlo
  have hj : j < w := by rw [Nat.add_mul, Nat.one_mul] at hhi; omega
  rw [test_word hw b i j hj, h, getLsbD_zero]

theorem ctz_lt {x : BitVec w} (h : x ≠ 0#w) : x.ctz.toNat < w := by
  have := BitVec.ctz_lt_iff_ne_zero.mpr h
  have hle := lt_def.mp this
  have hmod : (BitVec.ofNat w w).toNat ≤ w := by
    rw [toNat_ofNat]
    exact Nat.mod_le _ _
  exact Nat.lt_of_lt_of_le hle hmod

/-- What the scan finds is set, below the bound, and nothing before it is. -/
theorem scan_some (hw : 0 < w) (b : Nat → BitVec w) (n words i p : Nat)
    (hbefore : ∀ q, q < i * w → test b q = false) (h : scan b n words i = some p) :
    p < n ∧ test b p = true ∧ ∀ q, q < p → test b q = false := by
  induction words generalizing i with
  | zero => simp [scan] at h
  | succ words ih =>
    simp only [scan] at h
    split at h
    case isFalse => simp at h
    case isTrue hstart =>
      split at h
      case isTrue hword =>
        have hne : b i ≠ 0#w := by simpa using hword
        split at h
        case isTrue => simp at h
        case isFalse hlt =>
          obtain rfl := Option.some.inj h
          have hctz := ctz_lt hne
          refine ⟨by omega, ?_, ?_⟩
          · rw [test_word hw b i _ hctz]
            exact getLsbD_true_ctz_of_ne_zero hne
          intro q hq
          by_cases hlo : q < i * w
          · exact hbefore q hlo
          obtain ⟨j, rfl⟩ := Nat.exists_eq_add_of_le (Nat.le_of_not_lt hlo)
          rw [test_word hw b i j (by omega)]
          exact getLsbD_false_of_lt_ctz (by omega)
      case isFalse hword =>
        have hzero : b i = 0#w := by simpa using hword
        apply ih (i + 1) _ h
        intro q hq
        by_cases hlo : q < i * w
        · exact hbefore q hlo
        · exact test_of_word_zero hw b i q hzero (by omega) hq

/-- When the scan finds nothing and its words reach the bound, nothing is set below it. -/
theorem scan_none (hw : 0 < w) (b : Nat → BitVec w) (n words i : Nat)
    (hreach : n ≤ (i + words) * w) (hbefore : ∀ q, q < i * w → test b q = false)
    (h : scan b n words i = none) : ∀ q, q < n → test b q = false := by
  induction words generalizing i with
  | zero =>
    intro q hq
    exact hbefore q (by rw [Nat.add_zero] at hreach; omega)
  | succ words ih =>
    simp only [scan] at h
    split at h
    case isFalse hstart =>
      intro q hq
      exact hbefore q (by omega)
    case isTrue hstart =>
      split at h
      case isTrue hword =>
        have hne : b i ≠ 0#w := by simpa using hword
        split at h
        case isFalse => simp at h
        case isTrue hge =>
          -- the lowest set bit of this word is already past the bound
          intro q hq
          by_cases hlo : q < i * w
          · exact hbefore q hlo
          obtain ⟨j, rfl⟩ := Nat.exists_eq_add_of_le (Nat.le_of_not_lt hlo)
          have hj : j < (b i).ctz.toNat := by omega
          rw [test_word hw b i j (Nat.lt_trans hj (ctz_lt hne))]
          exact getLsbD_false_of_lt_ctz hj
      case isFalse hword =>
        have hzero : b i = 0#w := by simpa using hword
        apply ih (i + 1) (by rw [show i + 1 + words = i + (words + 1) by omega]; exact hreach) _ h
        intro q hq
        by_cases hlo : q < i * w
        · exact hbefore q hlo
        · exact test_of_word_zero hw b i q hzero (by omega) hq

end Nyx.Lib.Bitmap
