import Mathlib.Algebra.Order.Ring.Int
import Mathlib.Data.Int.DivMod
import Mathlib.Tactic.Linarith
import LinuxStm32.Base.Gregorian
import LinuxStm32.Base.Loop

/-!
# Broken-down time

Model of `kernel/time/timeconv.c:33-126`. `long` and `time_t` have 32 bits here and the kernel is
built with `-fno-strict-overflow`, so every sum and product wraps; division truncates towards
zero. The loops are run with a bound on their rounds and `timeToTm_spec` gives a result under
every bound from three on.
-/

namespace LinuxStm32.Kernel

open Base Gregorian

/-- The value a 32-bit signed variable takes. -/
def s32 (x : Int) : Int := x.bmod 4294967296

/-- `struct tm`. -/
structure Tm where
  sec : Int
  min : Int
  hour : Int
  mday : Int
  mon : Nat
  year : Int
  wday : Int
  yday : Int
  deriving DecidableEq, Repr

/-- `SECS_PER_DAY`. -/
def secsPerDay : Int := 60 * 60 * 24

/-- `__isleap`. -/
def isleap (year : Int) : Bool :=
  year.tmod 4 = 0 ∧ (year.tmod 100 ≠ 0 ∨ year.tmod 400 = 0)

/-- `math_div`: division rounding down. -/
def mathDiv (a b : Int) : Int := s32 (a.tdiv b - if a.tmod b < 0 then 1 else 0)

/-- `leaps_between`. -/
def leapsBetween (y1 y2 : Int) : Int :=
  let leaps1 := s32 (mathDiv (s32 (y1 - 1)) 4 - mathDiv (s32 (y1 - 1)) 100 +
    mathDiv (s32 (y1 - 1)) 400)
  let leaps2 := s32 (mathDiv (s32 (y2 - 1)) 4 - mathDiv (s32 (y2 - 1)) 100 +
    mathDiv (s32 (y2 - 1)) 400)
  s32 (leaps2 - leaps1)

/-- `__mon_yday`: the days before each month, of a normal and of a leap year. -/
def monYday (leap : Bool) : List Int :=
  if leap then [0, 31, 60, 91, 121, 152, 182, 213, 244, 274, 305, 335, 366]
  else [0, 31, 59, 90, 120, 151, 181, 212, 243, 273, 304, 334, 365]

/-- A time as whole days and seconds. -/
structure DaySecs where
  rem : Int
  days : Int
  deriving DecidableEq, Repr

/-- `while (rem < 0)` at line 83. -/
def borrowDay (s : DaySecs) : Option (DaySecs ⊕ DaySecs) :=
  if s.rem < 0 then some (.inl ⟨s32 (s.rem + secsPerDay), s32 (s.days - 1)⟩) else some (.inr s)

/-- `while (rem >= SECS_PER_DAY)` at line 87. -/
def carryDay (s : DaySecs) : Option (DaySecs ⊕ DaySecs) :=
  if secsPerDay ≤ s.rem then some (.inl ⟨s32 (s.rem - secsPerDay), s32 (s.days + 1)⟩)
  else some (.inr s)

/-- A day as a year and days from its start. -/
structure YearDays where
  y : Int
  days : Int
  deriving DecidableEq, Repr

/-- `while (days < 0 || days >= (__isleap(y) ? 366 : 365))` at line 104. -/
def guessYear (s : YearDays) : Option (YearDays ⊕ YearDays) :=
  if s.days < 0 ∨ (if isleap s.y then 366 else 365) ≤ s.days then
    let yg := s32 (s.y + mathDiv s.days 365)
    some (.inl ⟨yg, s32 (s.days - ((yg - s.y) * 365 + leapsBetween s.y yg))⟩)
  else some (.inr s)

/-- `for (y = 11; days < ip[y]; y--)` at line 118; there is no entry before `ip[0]`. -/
def findMonth (ip : List Int) (days : Int) : Nat → Option Nat
  | 0 => if days < ip.getD 0 0 then none else some 0
  | y + 1 => if days < ip.getD (y + 1) 0 then findMonth ip days y else some (y + 1)

/-- `time_to_tm`. -/
def timeToTm (fuel : Nat) (totalsecs offset : Int) : Option Tm := do
  let days := totalsecs.tdiv secsPerDay
  let rem := s32 (totalsecs.tmod secsPerDay + offset)
  let s ← loop borrowDay fuel ⟨rem, days⟩
  let ⟨rem, days⟩ ← loop carryDay fuel s
  let hour := rem.tdiv (60 * 60)
  let rem := rem.tmod (60 * 60)
  let wday := (s32 (4 + days)).tmod 7
  let wday := if wday < 0 then wday + 7 else wday
  let ⟨y, yday⟩ ← loop guessYear fuel ⟨1970, days⟩
  let ip := monYday (isleap y)
  let mon ← findMonth ip yday 11
  pure ⟨rem.tmod 60, rem.tdiv 60, hour, yday - ip.getD mon 0 + 1, mon, s32 (y - 1900), wday, yday⟩

/-- A leap day at the end of the range of 32-bit time, in local time. -/
example : timeToTm 3 2087942399 (-3600) = some ⟨59, 59, 22, 29, 1, 136, 5, 59⟩ := by decide

/-! ### The arithmetic stays in range -/

theorem s32_of_bounds {x : Int} (h : -2147483648 ≤ x) (h' : x < 2147483648) : s32 x = x :=
  Int.bmod_eq_of_le (by omega) (by omega)

theorem isleap_eq (y : Int) : isleap y = decide (IsLeap y) := by
  have hmod (n : Int) : y.tmod n = 0 ↔ y % n = 0 := by
    rw [← Int.dvd_iff_tmod_eq_zero, Int.dvd_iff_emod_eq_zero]
  unfold isleap
  rw [decide_eq_decide]
  unfold IsLeap
  simp only [ne_eq, hmod]

theorem yearLen_eq (y : Int) : (if isleap y then 366 else 365) = yearLen y := by
  unfold yearLen
  rw [isleap_eq]
  simp only [decide_eq_true_eq]

theorem mathDiv_eq {a b : Int} (hb : 0 < b) (ha : -2147483648 < a) (ha' : a < 2147483648) :
    mathDiv a b = a / b := by
  have hfloor : a.tdiv b - (if a.tmod b < 0 then 1 else 0) = a / b := by
    have hmod := Int.emod_nonneg a hb.ne'
    have hlt := Int.emod_lt_of_pos a hb
    rw [Int.tdiv_eq_ediv, Int.tmod_eq_emod, Int.sign_eq_one_of_pos hb]
    by_cases h : 0 ≤ a ∨ b ∣ a
    · rw [if_pos h, if_pos h, if_neg (by omega)]
      omega
    · rw [if_neg h, if_neg h, if_pos (by omega)]
      omega
  have hle : a / b ≤ max a 0 := by
    rcases le_or_gt 0 a with h | h
    · exact le_max_of_le_left (Int.ediv_le_self b h)
    · exact le_max_of_le_right (Int.ediv_neg_of_neg_of_pos h hb).le
  have hge : min a 0 ≤ a / b := by
    rcases le_or_gt 0 a with h | h
    · exact min_le_of_right_le (Int.ediv_nonneg h hb.le)
    · refine min_le_of_left_le ((Int.le_ediv_iff_mul_le hb).mpr ?_)
      nlinarith
  unfold mathDiv
  rw [hfloor]
  exact s32_of_bounds (by omega) (by omega)

theorem leapsBetween_eq {y₁ y₂ : Int} (h₁ : -1000000 ≤ y₁ ∧ y₁ ≤ 1000000)
    (h₂ : -1000000 ≤ y₂ ∧ y₂ ≤ 1000000) :
    leapsBetween y₁ y₂ = leapsBefore y₂ - leapsBefore y₁ := by
  have hleaps {y : Int} (h : -1000000 ≤ y ∧ y ≤ 1000000) :
      s32 (mathDiv (s32 (y - 1)) 4 - mathDiv (s32 (y - 1)) 100 + mathDiv (s32 (y - 1)) 400) =
        leapsBefore y := by
    have hy : s32 (y - 1) = y - 1 := s32_of_bounds (by omega) (by omega)
    have hdiv {b : Int} (hb : 0 < b) : mathDiv (y - 1) b = (y - 1) / b :=
      mathDiv_eq hb (by omega) (by omega)
    rw [hy, hdiv (by decide), hdiv (by decide), hdiv (by decide)]
    exact s32_of_bounds (by omega) (by omega)
  unfold leapsBetween
  simp only [hleaps h₁, hleaps h₂]
  unfold leapsBefore
  exact s32_of_bounds (by omega) (by omega)

/-! ### The loops -/

/-- The seconds of a time. -/
def DaySecs.total (s : DaySecs) : Int := s.days * 86400 + s.rem

theorem borrowDay_of_neg {s : DaySecs} (hlow : -172800 ≤ s.rem) (hneg : s.rem < 0)
    (hdays : -100000 ≤ s.days ∧ s.days ≤ 100000) :
    borrowDay s = some (.inl ⟨s.rem + 86400, s.days - 1⟩) := by
  unfold borrowDay secsPerDay
  rw [if_pos hneg, s32_of_bounds (by omega) (by omega), s32_of_bounds (by omega) (by omega)]
  rfl

theorem carryDay_of_le {s : DaySecs} (hhigh : s.rem < 172800) (hle : 86400 ≤ s.rem)
    (hdays : -100000 ≤ s.days ∧ s.days ≤ 100000) :
    carryDay s = some (.inl ⟨s.rem - 86400, s.days + 1⟩) := by
  unfold carryDay secsPerDay
  rw [if_pos (by omega), s32_of_bounds (by omega) (by omega), s32_of_bounds (by omega) (by omega)]
  rfl

/-- Borrowing days brings the seconds to zero or above and keeps the time. -/
theorem loop_borrowDay {fuel : Nat} {s : DaySecs} (hfuel : 3 ≤ fuel)
    (hrem : -172800 ≤ s.rem ∧ s.rem < 172800) (hdays : -50000 ≤ s.days ∧ s.days ≤ 50000) :
    ∃ r, loop borrowDay fuel s = some r ∧ 0 ≤ r.rem ∧ r.rem < 172800 ∧ r.total = s.total := by
  let inv : DaySecs → Prop := fun s' =>
    -172800 ≤ s'.rem ∧ s'.rem < 172800 ∧ s'.total = s.total
  let μ : DaySecs → Nat := fun s' => if 0 ≤ s'.rem then 0 else if -86400 ≤ s'.rem then 1 else 2
  have hround (s' : DaySecs) (h : inv s') : Round inv μ
      (fun r => 0 ≤ r.rem ∧ r.rem < 172800 ∧ r.total = s.total) s' (borrowDay s') := by
    obtain ⟨hlow, hhigh, htotal⟩ := h
    unfold DaySecs.total at htotal
    by_cases hneg : s'.rem < 0
    · rw [borrowDay_of_neg hlow hneg (by omega)]
      refine ⟨⟨?_, ?_, ?_⟩, ?_⟩
      · dsimp only; omega
      · dsimp only; omega
      · unfold DaySecs.total; dsimp only; omega
      · simp only [μ]
        split_ifs <;> omega
    · have hexit : borrowDay s' = some (.inr s') := if_neg hneg
      rw [hexit]
      exact ⟨by omega, hhigh, htotal⟩
  apply loop_total hround ⟨hrem.1, hrem.2, rfl⟩
  simp only [μ]
  split_ifs <;> omega

/-- Carrying days brings the seconds below one day and keeps the time. -/
theorem loop_carryDay {fuel : Nat} {s : DaySecs} (hfuel : 2 ≤ fuel)
    (hrem : 0 ≤ s.rem ∧ s.rem < 172800) (hdays : -50000 ≤ s.days ∧ s.days ≤ 50000) :
    ∃ r, loop carryDay fuel s = some r ∧ 0 ≤ r.rem ∧ r.rem < 86400 ∧ r.total = s.total := by
  let inv : DaySecs → Prop := fun s' =>
    0 ≤ s'.rem ∧ s'.rem < 172800 ∧ s'.total = s.total
  let μ : DaySecs → Nat := fun s' => if s'.rem < 86400 then 0 else 1
  have hround (s' : DaySecs) (h : inv s') : Round inv μ
      (fun r => 0 ≤ r.rem ∧ r.rem < 86400 ∧ r.total = s.total) s' (carryDay s') := by
    obtain ⟨hlow, hhigh, htotal⟩ := h
    unfold DaySecs.total at htotal
    by_cases hle : 86400 ≤ s'.rem
    · rw [carryDay_of_le hhigh hle (by omega)]
      refine ⟨⟨?_, ?_, ?_⟩, ?_⟩
      · dsimp only; omega
      · dsimp only; omega
      · unfold DaySecs.total; dsimp only; omega
      · simp only [μ]
        split_ifs <;> omega
    · have hexit : carryDay s' = some (.inr s') := if_neg hle
      rw [hexit]
      exact ⟨hlow, by omega, htotal⟩
  apply loop_total hround ⟨hrem.1, hrem.2, rfl⟩
  simp only [μ]
  split_ifs <;> omega

/-- One guess: the year moves by the quotient and the days keep naming the same day. -/
theorem guessYear_of_not {s : YearDays} (hout : ¬ (0 ≤ s.days ∧ s.days < yearLen s.y))
    (hy : 1000 ≤ s.y ∧ s.y ≤ 3000) (hdays : -100000 ≤ s.days ∧ s.days ≤ 100000) :
    guessYear s = some (.inl ⟨s.y + s.days / 365,
      yearStart s.y + s.days - yearStart (s.y + s.days / 365)⟩) := by
  have hcond : s.days < 0 ∨ yearLen s.y ≤ s.days := by omega
  have hyg : s32 (s.y + mathDiv s.days 365) = s.y + s.days / 365 := by
    rw [mathDiv_eq (by decide) (by omega) (by omega)]
    exact s32_of_bounds (by omega) (by omega)
  have hdays' : s32 (s.days - ((s.y + s.days / 365 - s.y) * 365 +
      leapsBetween s.y (s.y + s.days / 365))) =
      yearStart s.y + s.days - yearStart (s.y + s.days / 365) := by
    rw [leapsBetween_eq (by omega) (by omega)]
    unfold yearStart leapsBefore
    rw [s32_of_bounds (by omega) (by omega)]
    omega
  unfold guessYear
  rw [yearLen_eq, if_pos hcond]
  simp only [hyg, hdays']

theorem guessYear_of_in {s : YearDays} (hin : 0 ≤ s.days ∧ s.days < yearLen s.y) :
    guessYear s = some (.inr s) := by
  unfold guessYear
  rw [yearLen_eq]
  exact if_neg (by omega)

/-- A first guess from 1970 misses by the leap days of at most 69 years. -/
theorem first_guess {d : Int} (hd : -25000 ≤ d ∧ d ≤ 25000) :
    -18 ≤ d - yearStart (1970 + d / 365) ∧ d - yearStart (1970 + d / 365) ≤ 382 := by
  unfold yearStart leapsBefore
  omega

/-- A guess from close by is right. -/
theorem second_guess {y days : Int} (hout : ¬ (0 ≤ days ∧ days < yearLen y))
    (hnear : -18 ≤ days ∧ days ≤ 382) :
    0 ≤ yearStart y + days - yearStart (y + days / 365) ∧
      yearStart y + days - yearStart (y + days / 365) < yearLen (y + days / 365) := by
  have hlen := yearLen_bounds y
  rcases lt_or_ge days 0 with hneg | hpos
  · have hq : y + days / 365 = y - 1 := by omega
    have hprev := yearStart_succ (y - 1)
    have hlen' := yearLen_bounds (y - 1)
    rw [sub_add_cancel] at hprev
    rw [hq]
    omega
  · have hq : y + days / 365 = y + 1 := by omega
    have hlen' := yearLen_bounds (y + 1)
    rw [hq, yearStart_succ]
    omega

/-- The guesses end in the year of the day. -/
theorem loop_guessYear {fuel : Nat} {d : Int} (hfuel : 3 ≤ fuel)
    (hd : -25000 ≤ d ∧ d ≤ 25000) :
    ∃ r, loop guessYear fuel ⟨1970, d⟩ = some r ∧ 0 ≤ r.days ∧ r.days < yearLen r.y ∧
      yearStart r.y + r.days = d := by
  let inv : YearDays → Prop := fun s =>
    yearStart s.y + s.days = d ∧ (s.y = 1970 ∨ (-18 ≤ s.days ∧ s.days ≤ 382))
  let μ : YearDays → Nat := fun s =>
    if 0 ≤ s.days ∧ s.days < yearLen s.y then 0
    else if -18 ≤ s.days ∧ s.days ≤ 382 then 1 else 2
  have hround (s : YearDays) (h : inv s) : Round inv μ
      (fun r => 0 ≤ r.days ∧ r.days < yearLen r.y ∧ yearStart r.y + r.days = d) s
      (guessYear s) := by
    obtain ⟨hday, hfrom⟩ := h
    by_cases hin : 0 ≤ s.days ∧ s.days < yearLen s.y
    · rw [guessYear_of_in hin]
      exact ⟨hin.1, hin.2, hday⟩
    · have hrange : (1000 ≤ s.y ∧ s.y ≤ 3000) ∧ -100000 ≤ s.days ∧ s.days ≤ 100000 := by
        unfold yearStart leapsBefore at hday
        omega
      rw [guessYear_of_not hin hrange.1 hrange.2, hday]
      by_cases hnear : -18 ≤ s.days ∧ s.days ≤ 382
      · have hright := second_guess hin hnear
        have hlen := yearLen_bounds (s.y + s.days / 365)
        rw [hday] at hright
        refine ⟨⟨by dsimp only; omega, .inr (by dsimp only; omega)⟩, ?_⟩
        simp only [μ]
        rw [if_pos hright, if_neg hin, if_pos hnear]
        decide
      · have hy : s.y = 1970 := hfrom.resolve_right hnear
        have hd' : s.days = d := by
          rw [hy] at hday
          change 0 + s.days = d at hday
          omega
        have hguess := first_guess hd
        rw [hy, hd']
        refine ⟨⟨by dsimp only; omega, .inr hguess⟩, ?_⟩
        simp only [μ]
        rw [if_pos hguess, if_neg hin, if_neg hnear]
        split <;> decide
  apply loop_total hround ⟨by change 0 + d = d; omega, .inl rfl⟩
  simp only [μ]
  split_ifs <;> omega

/-! ### The month -/

theorem findMonth_spec (ip : List Int) (days : Int) (h : ip.getD 0 0 ≤ days) (n : Nat) :
    ∃ m, findMonth ip days n = some m ∧ m ≤ n ∧ ip.getD m 0 ≤ days ∧
      (m < n → days < ip.getD (m + 1) 0) := by
  induction n with
  | zero => exact ⟨0, if_neg (by omega), le_rfl, h, fun hlt => absurd hlt (lt_irrefl 0)⟩
  | succ n ih =>
    unfold findMonth
    split
    · next hlt =>
      obtain ⟨m, hm, hle, hlow, hhigh⟩ := ih
      refine ⟨m, hm, by omega, hlow, fun _ => ?_⟩
      rcases Nat.lt_or_eq_of_le hle with h' | rfl
      · exact hhigh h'
      · exact hlt
    · next hle => exact ⟨n + 1, rfl, le_rfl, by omega, fun hlt => absurd hlt (lt_irrefl _)⟩

theorem monYday_eq : ∀ leap : Bool, ∀ m < 13,
    (monYday leap).getD m 0 = monthStart leap (m + 1) := by
  decide

/-- The month of a day of the year. -/
theorem findMonth_year {y days : Int} (hlow : 0 ≤ days) (hhigh : days < yearLen y) :
    ∃ m, findMonth (monYday (IsLeap y)) days 11 = some m ∧
      ValidDate y (m + 1) (days - (monYday (IsLeap y)).getD m 0 + 1) ∧
      monthStart (IsLeap y) (m + 1) = (monYday (IsLeap y)).getD m 0 := by
  have hlen : yearLen y = monthStart (IsLeap y) 13 := by
    unfold yearLen monthStart
    by_cases h : IsLeap y <;> simp [h]
  obtain ⟨m, hm, hle, hfrom, hto⟩ := findMonth_spec (monYday (IsLeap y)) days
    (by rw [monYday_eq _ 0 (by decide)]; unfold monthStart; split <;> exact hlow) 11
  have hm₀ := monYday_eq (IsLeap y) m (by omega)
  have hm₁ : _ = monthStart (IsLeap y) (m + 2) := monYday_eq (IsLeap y) (m + 1) (by omega)
  have hnext : days < monthStart (IsLeap y) (m + 2) := by
    rcases Nat.lt_or_eq_of_le hle with h | rfl
    · rw [← hm₁]
      exact hto h
    · rw [← hlen]
      exact hhigh
  refine ⟨m, hm, ⟨by omega, by omega, by omega, ?_⟩, hm₀.symm⟩
  change _ ≤ monthStart (IsLeap y) (m + 2) - _
  omega

/-! ### The whole conversion -/

/-- The seconds from the epoch that a broken-down time stands for. -/
def Tm.total (tm : Tm) : Int :=
  dayNumber (tm.year + 1900) (tm.mon + 1) tm.mday * 86400 + tm.hour * 3600 + tm.min * 60 + tm.sec

/-- A broken-down time that exists: its fields are in range and agree with each other. -/
structure Tm.Valid (tm : Tm) : Prop where
  sec : 0 ≤ tm.sec ∧ tm.sec < 60
  min : 0 ≤ tm.min ∧ tm.min < 60
  hour : 0 ≤ tm.hour ∧ tm.hour < 24
  date : ValidDate (tm.year + 1900) (tm.mon + 1) tm.mday
  yday : yearStart (tm.year + 1900) + tm.yday = dayNumber (tm.year + 1900) (tm.mon + 1) tm.mday
  wday : tm.wday = (dayNumber (tm.year + 1900) (tm.mon + 1) tm.mday + 4) % 7

/-- The days and seconds of an offset time. -/
theorem loop_days {fuel : Nat} (hfuel : 3 ≤ fuel) {t offset : Int}
    (ht : -2147483648 ≤ t ∧ t < 2147483648) (hoffset : -86400 ≤ offset ∧ offset ≤ 86400) :
    ∃ s r, loop borrowDay fuel ⟨s32 (t.tmod secsPerDay + offset), t.tdiv secsPerDay⟩ = some s ∧
      loop carryDay fuel s = some r ∧ 0 ≤ r.rem ∧ r.rem < 86400 ∧ r.total = t + offset := by
  change ∃ s r, loop borrowDay fuel ⟨s32 (t.tmod 86400 + offset), t.tdiv 86400⟩ = some s ∧ _
  have hsplit : 86400 * t.tdiv 86400 + t.tmod 86400 = t := Int.mul_tdiv_add_tmod t 86400
  have hmod : t.tmod 86400 < 86400 := Int.tmod_lt_of_pos t (by decide)
  have hmod' : -86400 < t.tmod 86400 := Int.lt_tmod_of_pos t (by decide)
  rw [s32_of_bounds (by omega) (by omega)]
  obtain ⟨s, hs, hlow, hhigh, htotal⟩ := loop_borrowDay (s := ⟨t.tmod 86400 + offset,
    t.tdiv 86400⟩) hfuel (by dsimp only; omega) (by dsimp only; omega)
  unfold DaySecs.total at htotal
  dsimp only at htotal
  have htwo : 2 ≤ fuel := by omega
  obtain ⟨r, hr, hlow', hhigh', htotal'⟩ := loop_carryDay (s := s) htwo ⟨hlow, hhigh⟩ (by omega)
  refine ⟨s, r, hs, hr, hlow', hhigh', ?_⟩
  rw [htotal']
  unfold DaySecs.total
  omega

/-- Every 32-bit time and every offset of up to a day has a valid broken-down time, and it is
the offset time. -/
theorem timeToTm_spec {fuel : Nat} (hfuel : 3 ≤ fuel) {t offset : Int}
    (ht : -2147483648 ≤ t ∧ t < 2147483648) (hoffset : -86400 ≤ offset ∧ offset ≤ 86400) :
    ∃ tm, timeToTm fuel t offset = some tm ∧ tm.Valid ∧ tm.total = t + offset := by
  obtain ⟨s, ⟨rem, d⟩, hs, hr, hlow, hhigh, htotal⟩ := loop_days hfuel ht hoffset
  unfold DaySecs.total at htotal
  dsimp only at hlow hhigh htotal
  obtain ⟨⟨y, yday⟩, hy, hfrom, hto, hday⟩ := loop_guessYear (d := d) hfuel (by omega)
  dsimp only at hfrom hto hday
  obtain ⟨m, hm, hdate, hstart⟩ := findMonth_year hfrom hto
  have hyear : s32 (y - 1900) = y - 1900 := by
    unfold yearStart leapsBefore at hday
    have hlen := yearLen_bounds y
    exact s32_of_bounds (by omega) (by omega)
  have hwday : s32 (4 + d) = 4 + d := s32_of_bounds (by omega) (by omega)
  have hnumber : dayNumber y (m + 1) (yday - (monYday (IsLeap y)).getD m 0 + 1) = d := by
    unfold dayNumber
    omega
  have hweek : (if (4 + d).tmod 7 < 0 then (4 + d).tmod 7 + 7 else (4 + d).tmod 7) =
      (d + 4) % 7 := by
    rw [Int.tmod_eq_emod]
    split_ifs <;> omega
  have hsec : (rem.tmod 3600).tmod 60 = rem % 3600 % 60 := by
    rw [Int.tmod_eq_emod_of_nonneg hlow, Int.tmod_eq_emod_of_nonneg (by omega)]
  have hmin : (rem.tmod 3600).tdiv 60 = rem % 3600 / 60 := by
    rw [Int.tmod_eq_emod_of_nonneg hlow, Int.tdiv_eq_ediv_of_nonneg (by omega)]
  have hhour : rem.tdiv 3600 = rem / 3600 := Int.tdiv_eq_ediv_of_nonneg hlow
  refine ⟨⟨rem % 3600 % 60, rem % 3600 / 60, rem / 3600,
    yday - (monYday (IsLeap y)).getD m 0 + 1, m, y - 1900, (d + 4) % 7, yday⟩, ?_, ?_, ?_⟩
  · unfold timeToTm
    simp only [hs, hr, hy, isleap_eq, hm, hyear, hwday, hweek, Option.bind_eq_bind,
      Option.bind_some, Option.pure_def, Int.reduceMul, hsec, hmin, hhour]
  · exact {
      sec := ⟨by dsimp only; omega, by dsimp only; omega⟩
      min := ⟨by dsimp only; omega, by dsimp only; omega⟩
      hour := ⟨by dsimp only; omega, by dsimp only; omega⟩
      date := by simpa only [sub_add_cancel] using hdate
      yday := by simp only [sub_add_cancel, hnumber, hday]
      wday := by simp only [sub_add_cancel, hnumber] }
  · unfold Tm.total
    simp only [sub_add_cancel, hnumber]
    omega

end LinuxStm32.Kernel
