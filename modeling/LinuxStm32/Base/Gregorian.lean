import Mathlib.Data.Int.DivMod
import Mathlib.Data.List.Basic

/-!
# The Gregorian calendar

Days are numbered from 1 January 1970. Years are any integers, so the numbering runs backwards
from there as well.
-/

namespace LinuxStm32.Base.Gregorian

/-- Every fourth year, except the hundredths that are not four-hundredths. -/
def IsLeap (y : Int) : Prop := y % 4 = 0 ∧ (y % 100 ≠ 0 ∨ y % 400 = 0)

instance (y : Int) : Decidable (IsLeap y) :=
  inferInstanceAs (Decidable (y % 4 = 0 ∧ (y % 100 ≠ 0 ∨ y % 400 = 0)))

/-- Leap years before `y`, counted from year 1. -/
def leapsBefore (y : Int) : Int := (y - 1) / 4 - (y - 1) / 100 + (y - 1) / 400

/-- Days in a year. -/
def yearLen (y : Int) : Int := if IsLeap y then 366 else 365

/-- The number of the first day of a year. -/
def yearStart (y : Int) : Int := (y - 1970) * 365 + (leapsBefore y - leapsBefore 1970)

/-- Days of a year before a month, 1 to 12; month 13 stands for the end of the year. -/
def monthStart (leap : Bool) (m : Nat) : Int :=
  (if leap then [0, 0, 31, 60, 91, 121, 152, 182, 213, 244, 274, 305, 335, 366]
    else [0, 0, 31, 59, 90, 120, 151, 181, 212, 243, 273, 304, 334, 365]).getD m 0

/-- A day of the calendar. -/
def ValidDate (y : Int) (m : Nat) (d : Int) : Prop :=
  1 ≤ m ∧ m ≤ 12 ∧ 1 ≤ d ∧ d ≤ monthStart (IsLeap y) (m + 1) - monthStart (IsLeap y) m

/-- The number of a day. -/
def dayNumber (y : Int) (m : Nat) (d : Int) : Int :=
  yearStart y + monthStart (IsLeap y) m + (d - 1)

theorem yearStart_succ (y : Int) : yearStart (y + 1) = yearStart y + yearLen y := by
  unfold yearStart leapsBefore yearLen
  by_cases h : IsLeap y
  · rw [if_pos h]
    unfold IsLeap at h
    omega
  · rw [if_neg h]
    unfold IsLeap at h
    omega

theorem yearLen_bounds (y : Int) : 365 ≤ yearLen y ∧ yearLen y ≤ 366 := by
  unfold yearLen
  split <;> decide

/-- No month ends after its year. -/
theorem monthStart_le : ∀ leap : Bool, ∀ m < 14, 0 ≤ monthStart leap m ∧
    monthStart leap m ≤ if leap then 366 else 365 := by
  decide

/-- A day lies in its year. -/
theorem ValidDate.bounds {y : Int} {m : Nat} {d : Int} (h : ValidDate y m d) :
    yearStart y ≤ dayNumber y m d ∧ dayNumber y m d < yearStart (y + 1) := by
  obtain ⟨hm, hm', hd, hd'⟩ := h
  have hstart := monthStart_le (IsLeap y) m (by omega)
  have hstop := monthStart_le (IsLeap y) (m + 1) (by omega)
  simp only [decide_eq_true_eq] at hstop
  rw [yearStart_succ]
  unfold dayNumber yearLen
  omega

/-- No month has more than 31 days. -/
theorem ValidDate.day_le {y : Int} {m : Nat} {d : Int} (h : ValidDate y m d) : d ≤ 31 := by
  have hlen : ∀ leap : Bool, ∀ m < 13, monthStart leap (m + 1) - monthStart leap m ≤ 31 := by
    decide
  have := hlen (IsLeap y) m (by have := h.2.1; omega)
  exact Int.le_trans h.2.2.2 this

end LinuxStm32.Base.Gregorian
