import Mathlib

/-! Calendar dates as seconds (`rtc_to_epoch` in `syscall.c`, `ext2_now` in `ext2.c`).

Both count days by the era of 400 years, with years that begin in March, the one in signed and the
other in unsigned arithmetic of 32 bits. Both agree with the calendar (`epoch_exact`). -/
namespace Nyx.Calendar
open Finset

/-- `rtc_time_t`. -/
structure RtcTime where
  second : BitVec 8
  minute : BitVec 8
  hour : BitVec 8
  day : BitVec 8
  month : BitVec 8
  year : BitVec 16

variable (t : RtcTime) (y : Nat)

def marchYear : Int := t.year.toNat - if t.month.toNat ≤ 2 then 1 else 0

def era (y : Int) : Int := (if 0 ≤ y then y else y - 399).tdiv 400

def secondOfDay : Nat := t.hour.toNat * 3600 + t.minute.toNat * 60 + t.second.toNat

def rtcToEpoch : Int :=
  let y := marchYear t
  let m : Int := t.month.toNat
  let yoe := y - era y * 400
  let doy := (153 * (m + if 2 < m then -3 else 9) + 2).tdiv 5 + t.day.toNat - 1
  let doe := yoe * 365 + yoe.tdiv 4 - yoe.tdiv 100 + doy
  let days := era y * 146097 + doe - 719468
  days * 86400 + secondOfDay t

def ext2Now : BitVec 32 :=
  if t.year.toNat < 1970 ∨ t.month.toNat < 1 ∨ 12 < t.month.toNat then 0#32
  else
    let y := marchYear t
    let m := t.month.setWidth 32
    let d := if t.day = 0#8 then 1#32 else t.day.setWidth 32
    let yoe := BitVec.ofInt 32 (y - era y * 400)
    let doy := (153#32 * (m + if 2#32 < m then -3#32 else 9#32) + 2#32) / 5#32 + d - 1#32
    let doe := yoe * 365#32 + yoe / 4#32 - yoe / 100#32 + doy
    let days : Int := era y * 146097 + doe.toNat - 719468
    BitVec.ofInt 32 (days * 86400 + secondOfDay t)

/-! ### The calendar -/

def leap (y : Nat) : Bool := y % 4 == 0 && (y % 100 != 0 || y % 400 == 0)

def yearLength (y : Nat) : Nat := if leap y then 366 else 365

def monthLength (y m : Nat) : Nat :=
  if m = 2 then if leap y then 29 else 28
  else if m = 4 ∨ m = 6 ∨ m = 9 ∨ m = 11 then 30 else 31

def monthStart (y m : Nat) : Nat := ∑ i ∈ range (m - 1), monthLength y (i + 1)

/-- The days from 1970-01-01. -/
def dayNumber : Nat :=
  ∑ i ∈ range (t.year.toNat - 1970), yearLength (1970 + i) +
    monthStart t.year.toNat t.month.toNat + (t.day.toNat - 1)

structure RtcTime.Valid (t : RtcTime) : Prop where
  year : 1970 ≤ t.year.toNat
  month : 1 ≤ t.month.toNat ∧ t.month.toNat ≤ 12
  day : 1 ≤ t.day.toNat ∧ t.day.toNat ≤ monthLength t.year.toNat t.month.toNat
  hour : t.hour.toNat < 24
  minute : t.minute.toNat < 60
  second : t.second.toNat < 60

theorem leap_iff : leap y = true ↔ y % 4 = 0 ∧ (y % 100 ≠ 0 ∨ y % 400 = 0) := by
  simp [leap]

theorem leap_false_iff : leap y = false ↔ y % 4 ≠ 0 ∨ y % 100 = 0 ∧ y % 400 ≠ 0 := by
  rw [← Bool.not_eq_true, leap_iff]
  omega

/-! ### Years that begin in March -/

/-- The days of such a year before a month. -/
def marchStart (m : Nat) : Nat := (153 * (if 2 < m then m - 3 else m + 9) + 2) / 5

def marchDays (y : Nat) : Nat := y / 400 * 146097 + (y % 400 * 365 + y % 400 / 4 - y % 400 / 100)

theorem marchDays_succ : marchDays (y + 1) = marchDays y + yearLength (y + 1) := by
  rw [marchDays, marchDays, yearLength]
  cases h : leap (y + 1)
  · rw [leap_false_iff] at h
    simp only [Bool.false_eq_true, if_false]
    omega
  · rw [leap_iff] at h
    simp only [if_true]
    omega

theorem sum_yearLength (n : Nat) :
    ∑ i ∈ range n, yearLength (1970 + i) + 719162 = marchDays (1969 + n) := by
  induction n with
  | zero => rfl
  | succ n ih =>
    rw [sum_range_succ, ← Nat.add_assoc, marchDays_succ, ← ih, show 1969 + n + 1 = 1970 + n by omega]
    omega

theorem marchDays_eq {y m d : Nat} (hy : 1970 ≤ y) (hm : 1 ≤ m ∧ m ≤ 12) :
    marchDays (y - if m ≤ 2 then 1 else 0) + marchStart m + d =
      ∑ i ∈ range (y - 1970), yearLength (1970 + i) + monthStart y m + d + 719468 := by
  obtain ⟨n, rfl⟩ := Nat.exists_eq_add_of_le hy
  have hyears := sum_yearLength n
  have hnext := marchDays_succ (1969 + n)
  rw [show 1969 + n + 1 = 1970 + n by omega, yearLength] at hnext
  rw [Nat.add_sub_cancel_left, monthStart, marchStart]
  obtain ⟨hm₁, hm₂⟩ := hm
  interval_cases m <;> cases hl : leap (1970 + n) <;>
    simp [sum_range_succ, monthLength, hl] at hnext ⊢ <;> omega

section
variable {t : RtcTime} (h : t.Valid)
include h

/-- The parts that both functions compute, in signed arithmetic. -/
theorem march_parts : ∃ y : Nat, marchYear t = y ∧ era y = (y / 400 : Nat) ∧
    (y : Int) - era y * 400 = (y % 400 : Nat) ∧
    (marchDays y + marchStart t.month.toNat + (t.day.toNat - 1) : Nat) = dayNumber t + 719468 := by
  have hy := h.year
  have hera (y : Nat) : era y = (y / 400 : Nat) := by
    rw [era, if_pos (Int.natCast_nonneg y)]
    rfl
  refine ⟨t.year.toNat - if t.month.toNat ≤ 2 then 1 else 0, ?_, hera _, ?_, ?_⟩
  · rw [marchYear]
    split <;> omega
  · rw [hera]
    omega
  · exact marchDays_eq h.year h.month

theorem rtcToEpoch_eq : rtcToEpoch t = 86400 * dayNumber t + secondOfDay t := by
  obtain ⟨y, hy, hera, hyoe, hdays⟩ := march_parts h
  obtain ⟨hm₁, hm₂⟩ := h.month
  have hday := h.day.1
  have hdoy : (153 * ((t.month.toNat : Int) + if 2 < (t.month.toNat : Int) then -3 else 9) + 2).tdiv 5
      = marchStart t.month.toNat := by
    interval_cases t.month.toNat <;> rfl
  have h4 : ((y % 400 : Nat) : Int).tdiv 4 = (y % 400 / 4 : Nat) := rfl
  have h100 : ((y % 400 : Nat) : Int).tdiv 100 = (y % 400 / 100 : Nat) := rfl
  rw [rtcToEpoch, hy, hyoe, hera, hdoy, h4, h100]
  rw [marchDays] at hdays
  omega

theorem ext2Now_eq : ext2Now t = BitVec.ofInt 32 (86400 * dayNumber t + secondOfDay t) := by
  obtain ⟨y, hy, hera, hyoe, hdays⟩ := march_parts h
  have hday := h.day.1
  have hlt := t.day.isLt
  have hdoy : ∀ b : BitVec 8, 1 ≤ b.toNat ∧ b.toNat ≤ 12 →
      (153#32 * (b.setWidth 32 + if 2#32 < b.setWidth 32 then -3#32 else 9#32) + 2#32) / 5#32 =
        BitVec.ofNat 32 (marchStart b.toNat) ∧ marchStart b.toNat < 400 := by
    decide +kernel
  obtain ⟨hdoy, hstart⟩ := hdoy t.month h.month
  have hd : (if t.day = 0#8 then 1#32 else t.day.setWidth 32) = BitVec.ofNat 32 t.day.toNat := by
    rw [if_neg fun h0 => by rw [h0] at hday; exact absurd hday (by decide), BitVec.ofNat_toNat]
  rw [ext2Now, if_neg (by have := h.year; have := h.month; omega), hy]
  dsimp only
  rw [hyoe, hera, hdoy, hd, BitVec.ofInt_natCast]
  have hdoe : (BitVec.ofNat 32 (y % 400) * 365#32 + BitVec.ofNat 32 (y % 400) / 4#32 -
      BitVec.ofNat 32 (y % 400) / 100#32 + (BitVec.ofNat 32 (marchStart t.month.toNat) +
        BitVec.ofNat 32 t.day.toNat - 1#32)).toNat =
      y % 400 * 365 + y % 400 / 4 - y % 400 / 100 + (marchStart t.month.toNat + t.day.toNat - 1) := by
    generalize marchStart t.month.toNat = m at *
    generalize t.day.toNat = d at *
    have ha : y % 400 < 400 := Nat.mod_lt _ (by decide)
    generalize y % 400 = a at *
    simp (disch := omega) only [BitVec.toNat_add, BitVec.toNat_sub, BitVec.toNat_mul,
      BitVec.toNat_udiv, BitVec.toNat_ofNat, Nat.mod_eq_of_lt, Nat.reducePow]
    omega
  rw [hdoe]
  rw [marchDays] at hdays
  congr 1
  omega

end

/-! ### The order of dates -/

def RtcTime.fields (t : RtcTime) : List Nat :=
  [t.year.toNat, t.month.toNat, t.day.toNat, t.hour.toNat, t.minute.toNat, t.second.toNat]

theorem monthStart_le (y : Nat) {m m' : Nat} (h : m ≤ m') : monthStart y m ≤ monthStart y m' :=
  sum_le_sum_of_subset (range_mono (by omega))

theorem day_lt {t : RtcTime} (h : t.Valid) : monthStart t.year.toNat t.month.toNat +
    (t.day.toNat - 1) < monthStart t.year.toNat (t.month.toNat + 1) := by
  obtain ⟨n, hn⟩ := Nat.exists_eq_add_of_le h.month.1
  have hday := h.day
  rw [hn] at hday ⊢
  simp only [monthStart, Nat.add_sub_cancel, Nat.add_sub_cancel_left]
  rw [Nat.add_comm 1 n, sum_range_succ]
  rw [Nat.add_comm 1 n] at hday
  omega

theorem monthStart_end (y : Nat) : monthStart y 13 = yearLength y := by
  rw [monthStart, yearLength]
  cases h : leap y <;> simp [sum_range_succ, monthLength, h]

theorem epoch_lt {t t' : RtcTime} (h : t.Valid) (h' : t'.Valid) (hlt : t.fields < t'.fields) :
    86400 * dayNumber t + secondOfDay t < 86400 * dayNumber t' + secondOfDay t' := by
  have hday := day_lt h
  obtain ⟨hh, hmi, hs⟩ := And.intro h.hour (And.intro h.minute h.second)
  have hlast : dayNumber t < dayNumber t' → 86400 * dayNumber t + secondOfDay t <
      86400 * dayNumber t' + secondOfDay t' := by
    simp only [secondOfDay]
    omega
  simp only [RtcTime.fields, List.cons_lt_cons_iff] at hlt
  rcases hlt with hy | ⟨hy, hm | ⟨hm, hd | ⟨hd, htime⟩⟩⟩
  · refine hlast ?_
    have hyear := hday.trans_le (monthStart_le t.year.toNat (Nat.succ_le_succ h.month.2))
    rw [monthStart_end] at hyear
    have hle : ∑ i ∈ range (t.year.toNat - 1970 + 1), yearLength (1970 + i) ≤
        ∑ i ∈ range (t'.year.toNat - 1970), yearLength (1970 + i) :=
      sum_le_sum_of_subset (range_mono (by have := h.year; omega))
    rw [sum_range_succ, Nat.add_sub_cancel' h.year] at hle
    simp only [dayNumber]
    omega
  · refine hlast ?_
    have hmonth := hday.trans_le (monthStart_le t.year.toNat hm)
    simp only [dayNumber, ← hy]
    omega
  · refine hlast ?_
    have hpos := h.day.1
    simp only [dayNumber, ← hy, ← hm]
    omega
  · simp only [List.not_lt_nil, and_false, or_false] at htime
    simp only [dayNumber, secondOfDay, ← hy, ← hm, ← hd]
    have hmi' := h'.minute
    have hs' := h'.second
    omega

/-- For every date from 1970 on and every time of day, `rtc_to_epoch` is the number of seconds
from 1970-01-01, which grows with the date, and `ext2_now` is that number modulo 2^32. -/
theorem epoch_exact (t : RtcTime) (h : t.Valid) :
    rtcToEpoch t = 86400 * dayNumber t + secondOfDay t ∧
      (∀ t' : RtcTime, t'.Valid → t.fields < t'.fields → rtcToEpoch t < rtcToEpoch t') ∧
      ext2Now t = BitVec.ofInt 32 (rtcToEpoch t) := by
  refine ⟨rtcToEpoch_eq h, fun t' h' hlt => ?_, ?_⟩
  · rw [rtcToEpoch_eq h, rtcToEpoch_eq h']
    exact_mod_cast epoch_lt h h' hlt
  · rw [rtcToEpoch_eq h]
    exact ext2Now_eq h

/-- The leap day of 2000. -/
theorem epoch_exact_leap : rtcToEpoch ⟨0, 0, 0, 29, 2, 2000⟩ = 951782400 ∧
    ext2Now ⟨0, 0, 0, 29, 2, 2000⟩ = 951782400#32 := by
  have h := epoch_exact ⟨0, 0, 0, 29, 2, 2000⟩ (by constructor <;> decide)
  exact ⟨h.1.trans (by decide +kernel), h.2.2.trans (by rw [h.1]; decide +kernel)⟩

end Nyx.Calendar
