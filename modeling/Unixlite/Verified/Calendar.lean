import Mathlib.Algebra.BigOperators.Intervals
import Mathlib.Algebra.Order.BigOperators.Group.Finset
import Mathlib.Logic.Function.Iterate

/-!
# The Gregorian calendar

Dates carry the proof that they exist.  `Date.number` counts the days since the
first of January of an epoch year by summing lengths of years and of months;
`iterate_next` says that it is the number of times one has to turn the page of the
calendar, which is what the sum is for.
-/

namespace Unixlite.Verified.Calendar

open Finset

/-- The leap years. -/
def Leap (y : Nat) : Prop := (4 ∣ y ∧ ¬ 100 ∣ y) ∨ 400 ∣ y

instance (y : Nat) : Decidable (Leap y) :=
  inferInstanceAs (Decidable ((4 ∣ y ∧ ¬ 100 ∣ y) ∨ 400 ∣ y))

/-- The days of a month, counted from 1. -/
def monthLength (y : Nat) : Nat → Nat
  | 2 => if Leap y then 29 else 28
  | 4 | 6 | 9 | 11 => 30
  | _ => 31

theorem monthLength_pos (y m : Nat) : 0 < monthLength y m := by
  unfold monthLength
  split
  · split <;> decide
  · decide
  · decide
  · decide
  · decide
  · decide

def yearLength (y : Nat) : Nat := ∑ m ∈ Finset.range 12, monthLength y (m + 1)

theorem yearLength_eq (y : Nat) : yearLength y = if Leap y then 366 else 365 := by
  simp only [yearLength, sum_range_succ, sum_range_zero, monthLength]
  split <;> rfl

/-! ## Dates -/

/-- A day of the calendar. -/
@[ext]
structure Date where
  year : Nat
  month : Nat
  day : Nat
  month_pos : 1 ≤ month
  month_le : month ≤ 12
  day_pos : 1 ≤ day
  day_le : day ≤ monthLength year month

/-- The first of January. -/
def newYear (y : Nat) : Date where
  year := y
  month := 1
  day := 1
  month_pos := le_rfl
  month_le := by decide
  day_pos := le_rfl
  day_le := monthLength_pos y 1

/-- The first of the month after `m`. -/
def firstAfter (y m : Nat) (h : m < 12) : Date where
  year := y
  month := m + 1
  day := 1
  month_pos := by omega
  month_le := h
  day_pos := le_rfl
  day_le := monthLength_pos y (m + 1)

/-- The last day of a month. -/
def lastOf (y m : Nat) (hpos : 1 ≤ m) (hle : m ≤ 12) : Date where
  year := y
  month := m
  day := monthLength y m
  month_pos := hpos
  month_le := hle
  day_pos := monthLength_pos y m
  day_le := le_rfl

/-- The day after. -/
def Date.next (d : Date) : Date :=
  if hday : d.day < monthLength d.year d.month then
    { d with day := d.day + 1, day_pos := by omega, day_le := hday }
  else if hmonth : d.month < 12 then firstAfter d.year d.month hmonth
  else newYear (d.year + 1)

theorem next_lastOf {y m : Nat} (hpos : 1 ≤ m) (h : m < 12) :
    (lastOf y m hpos h.le).next = firstAfter y m h := by
  have hlast : ¬ (lastOf y m hpos h.le).day <
      monthLength (lastOf y m hpos h.le).year (lastOf y m hpos h.le).month := lt_irrefl _
  have hmonth : (lastOf y m hpos h.le).month < 12 := h
  rw [Date.next, dif_neg hlast, dif_pos hmonth]
  rfl

theorem next_dec (y : Nat) : (lastOf y 12 (by decide) le_rfl).next = newYear (y + 1) := by
  rfl

/-- The days from the first of January of the epoch year to the date. -/
def Date.number (epoch : Nat) (d : Date) : Nat :=
  ∑ i ∈ Finset.range (d.year - epoch), yearLength (epoch + i) +
    ∑ m ∈ Finset.range (d.month - 1), monthLength d.year (m + 1) + (d.day - 1)

variable {epoch : Nat}

@[simp] theorem number_newYear (epoch : Nat) : (newYear epoch).number epoch = 0 := by
  simp [Date.number, newYear]

/-- The days up to the end of a month. -/
theorem sum_month (d : Date) : ∑ m ∈ Finset.range d.month, monthLength d.year (m + 1) =
    ∑ m ∈ Finset.range (d.month - 1), monthLength d.year (m + 1) +
      monthLength d.year d.month := by
  obtain ⟨m, hm⟩ : ∃ m, d.month = m + 1 := ⟨d.month - 1, by have := d.month_pos; omega⟩
  rw [hm, sum_range_succ, Nat.add_sub_cancel]

/-- The next date has the next number. -/
theorem number_next {d : Date} (h : epoch ≤ d.year) : d.next.number epoch = d.number epoch + 1 := by
  have hday := d.day_pos
  have hday_le := d.day_le
  unfold Date.next
  split
  · simp only [Date.number]
    omega
  · next hlast =>
      have hmonthEnd := sum_month d
      split
      · simp only [Date.number, firstAfter, Nat.add_sub_cancel, hmonthEnd]
        omega
      · next hdec =>
          have hmonth12 : d.month = 12 := by
            have := d.month_le
            omega
          have hyearEnd : yearLength d.year = ∑ m ∈ Finset.range d.month,
              monthLength d.year (m + 1) := by rw [hmonth12, yearLength]
          have hyears : ∑ i ∈ Finset.range (d.year + 1 - epoch), yearLength (epoch + i) =
              ∑ i ∈ Finset.range (d.year - epoch), yearLength (epoch + i) +
                yearLength d.year := by
            rw [show d.year + 1 - epoch = d.year - epoch + 1 by omega, sum_range_succ,
              Nat.add_sub_cancel' h]
          simp only [Date.number, newYear, hyears, hyearEnd, hmonthEnd, Nat.sub_self,
            range_zero, sum_empty]
          omega

/-- Every date but the epoch is the day after another. -/
theorem exists_prev {d : Date} (h : epoch ≤ d.year) (hne : d ≠ newYear epoch) :
    ∃ e : Date, e.next = d ∧ epoch ≤ e.year := by
  by_cases hday : 1 < d.day
  · refine ⟨⟨d.year, d.month, d.day - 1, d.month_pos, d.month_le, by omega,
      le_trans (Nat.sub_le _ _) d.day_le⟩, ?_, h⟩
    have hlt : d.day - 1 < monthLength d.year d.month := by
      have := d.day_le
      omega
    rw [Date.next, dif_pos hlt]
    ext <;> simp only
    omega
  · have hfirst : d.day = 1 := by have := d.day_pos; omega
    by_cases hmonth : 1 < d.month
    · have hlt : d.month - 1 < 12 := by have := d.month_le; omega
      refine ⟨lastOf d.year (d.month - 1) (by omega) hlt.le, ?_, h⟩
      rw [next_lastOf (by omega) hlt]
      ext <;> simp only [firstAfter]
      · omega
      · exact hfirst.symm
    · have hjan : d.month = 1 := by have := d.month_pos; omega
      have hyear : epoch < d.year := by
        refine lt_of_le_of_ne h fun heq => hne ?_
        ext
        · exact heq.symm
        · exact hjan
        · exact hfirst
      refine ⟨lastOf (d.year - 1) 12 (by decide) le_rfl, ?_, Nat.le_sub_one_of_lt hyear⟩
      rw [next_dec]
      ext <;> simp only [newYear]
      · omega
      · exact hjan.symm
      · exact hfirst.symm

/-- **The number of a date** is the number of days one has to go from the epoch. -/
theorem iterate_next {d : Date} (h : epoch ≤ d.year) :
    Date.next^[d.number epoch] (newYear epoch) = d := by
  generalize hn : d.number epoch = n
  induction n generalizing d with
  | zero =>
      by_contra hne
      obtain ⟨e, rfl, he⟩ := exists_prev h (Ne.symm hne)
      rw [number_next he] at hn
      exact Nat.succ_ne_zero _ hn
  | succ n ih =>
      have hne : d ≠ newYear epoch := by
        rintro rfl
        simp at hn
      obtain ⟨e, rfl, he⟩ := exists_prev h hne
      rw [number_next he] at hn
      rw [Function.iterate_succ_apply', ih he (Nat.succ_injective hn)]

/-- A date lies in its year. -/
theorem number_lt {d : Date} (h : epoch ≤ d.year) :
    d.number epoch < ∑ i ∈ Finset.range (d.year + 1 - epoch), yearLength (epoch + i) := by
  have hmonths : ∑ m ∈ Finset.range d.month, monthLength d.year (m + 1) ≤ yearLength d.year :=
    sum_le_sum_of_subset (range_subset_range.mpr d.month_le)
  have hday : ∑ m ∈ Finset.range d.month, monthLength d.year (m + 1) =
      ∑ m ∈ Finset.range (d.month - 1), monthLength d.year (m + 1) +
        monthLength d.year d.month := sum_month d
  have hlast := d.day_le
  have hfirst := d.day_pos
  rw [show d.year + 1 - epoch = d.year - epoch + 1 by omega, sum_range_succ,
    Nat.add_sub_cancel' h]
  simp only [Date.number]
  omega

/-! ## Times of day -/

/-- A second of a day. -/
structure Moment extends Date where
  hour : Nat
  min : Nat
  sec : Nat
  hour_lt : hour < 24
  min_lt : min < 60
  sec_lt : sec < 60

/-- The seconds from midnight of the first of January of the epoch year. -/
def Moment.seconds (epoch : Nat) (t : Moment) : Nat :=
  t.toDate.number epoch * 86400 + t.hour * 3600 + t.min * 60 + t.sec

end Unixlite.Verified.Calendar
