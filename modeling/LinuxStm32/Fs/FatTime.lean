import Mathlib.Tactic.Ring
import LinuxStm32.Kernel.TimeConv

/-!
# FAT timestamps

Model of `fs/fat/misc.c:146-244`. A directory entry keeps a date and a time of day in two 16-bit
words, the latter in steps of two seconds, and for the creation time hundredths of a second, up to
1.99 s, in a byte. The machine is little-endian, so `cpu_to_le16` and `le16_to_cpu` do nothing.
-/

namespace LinuxStm32.Fs

open Base Gregorian Kernel

/-- `struct timespec`. -/
structure Timespec where
  tvSec : Int
  tvNsec : Int
  deriving DecidableEq, Repr

/-- What the conversions depend on: the mount option `tz_utc` and `sys_tz.tz_minuteswest`. -/
structure FatTimeZone where
  tzUtc : Bool
  tzMinuteswest : Int
  deriving DecidableEq, Repr

/-- What `fat_time_unix2fat` stores; there is no `time_cs` where its pointer is `NULL`. -/
structure FatStamp where
  time : BitVec 16
  date : BitVec 16
  timeCs : Option (BitVec 8)
  deriving DecidableEq, Repr

/-- `days_in_year`. -/
def daysInYear : List Int :=
  [0, 0, 31, 59, 90, 120, 151, 181, 212, 243, 273, 304, 334, 0, 0, 0]

/-- `DAYS_DELTA`. -/
def daysDelta : Int := 365 * 10 + 2

/-- `YEAR_2100`. -/
def year2100 : Int := 120

/-- `IS_LEAP_YEAR`; `y & 3` of a year is its remainder. -/
def isLeapYear (y : Int) : Bool := y % 4 = 0 ∧ y ≠ year2100

/-- The value of `leap_day` in `fat_time_fat2unix`. -/
def fatLeapDay (year : Int) (month : Nat) : Int :=
  let leapDay := (year + 3).tdiv 4
  let leapDay := if year > year2100 then leapDay - 1 else leapDay
  if isLeapYear year ∧ month > 2 then leapDay + 1 else leapDay

/-- The factor of `SECS_PER_DAY` in `fat_time_fat2unix`. -/
def fatDays (year : Int) (month : Nat) (day : Int) : Int :=
  year * 365 + fatLeapDay year month + daysInYear.getD month 0 + day + daysDelta

/-- `fat_time_fat2unix`. -/
def fatTimeFat2unix (tz : FatTimeZone) (time date : BitVec 16) (timeCs : BitVec 8) : Timespec :=
  let year : Int := (date >>> 9).toNat
  let month : Nat := max 1 ((date >>> 5) &&& 0xf#16).toNat
  let day : Int := (max 1 (date &&& 0x1f#16).toNat : Nat) - 1
  let second : Int := ((time &&& 0x1f#16).toNat : Int) * 2
  let second := s32 (second + ((time >>> 5) &&& 0x3f#16).toNat * 60)
  let second := s32 (second + (time >>> 11).toNat * (60 * 60))
  let second := s32 (second + fatDays year month day * secsPerDay)
  let second := if tz.tzUtc then second else s32 (second + tz.tzMinuteswest * 60)
  if timeCs ≠ 0#8 then ⟨s32 (second + timeCs.toNat / 100), timeCs.toNat % 100 * 10000000⟩
  else ⟨second, 0⟩

/-- A 16-bit word put together from three fields, as `a << i | b << j | c` in an `int`. -/
def packFat (a : Int) (i : Nat) (b : Int) (j : Nat) (c : Int) : BitVec 16 :=
  (BitVec.ofInt 32 a <<< i ||| BitVec.ofInt 32 b <<< j ||| BitVec.ofInt 32 c).setWidth 16

/-- `fat_time_unix2fat`; `wantCs` says that `time_cs` is not `NULL`. -/
def fatTimeUnix2fat (fuel : Nat) (tz : FatTimeZone) (wantCs : Bool) (ts : Timespec) :
    Option FatStamp := do
  let tm ← timeToTm fuel ts.tvSec (if tz.tzUtc then 0 else s32 (-tz.tzMinuteswest * 60))
  let cs (v : BitVec 8) : Option (BitVec 8) := if wantCs then some v else none
  if tm.year < 1980 - 1900 then
    pure ⟨0#16, packFat 0 9 1 5 1, cs 0#8⟩
  else if tm.year > 2107 - 1900 then
    pure ⟨packFat 23 11 59 5 29, packFat 127 9 12 5 31, cs 199#8⟩
  else
    pure ⟨packFat tm.hour 11 tm.min 5 (tm.sec / 2), packFat (tm.year - 80) 9 (tm.mon + 1) 5 tm.mday,
      cs (BitVec.ofInt 8 (ts.tvSec % 2 * 100 + ts.tvNsec.tdiv 10000000))⟩

/-! ### The packed words -/

theorem packFat_toNat {a b c i j : Nat} (hj : j ≤ i) (hi : i ≤ 16) (ha : a < 2 ^ (16 - i))
    (hb : b < 2 ^ (i - j)) (hc : c < 2 ^ j) :
    (packFat a i b j c).toNat = a * 2 ^ i + b * 2 ^ j + c := by
  have hai : a * 2 ^ i + 2 ^ i ≤ 65536 := by
    calc a * 2 ^ i + 2 ^ i = (a + 1) * 2 ^ i := by rw [Nat.add_one_mul]
      _ ≤ 2 ^ (16 - i) * 2 ^ i := Nat.mul_le_mul_right _ ha
      _ = 65536 := by rw [← Nat.pow_add, Nat.sub_add_cancel hi]
  have hbj : b * 2 ^ j + 2 ^ j ≤ 2 ^ i := by
    calc b * 2 ^ j + 2 ^ j = (b + 1) * 2 ^ j := by rw [Nat.add_one_mul]
      _ ≤ 2 ^ (i - j) * 2 ^ j := Nat.mul_le_mul_right _ hb
      _ = 2 ^ i := by rw [← Nat.pow_add, Nat.sub_add_cancel hj]
  have hor : a <<< i ||| b <<< j ||| c = a * 2 ^ i + b * 2 ^ j + c := by
    rw [Nat.or_assoc, ← Nat.shiftLeft_add_eq_or_of_lt hc, ← Nat.shiftLeft_add_eq_or_of_lt]
    · rw [Nat.shiftLeft_eq, Nat.shiftLeft_eq, Nat.add_assoc]
    · rw [Nat.shiftLeft_eq]
      omega
  have hpos := Nat.two_pow_pos i
  have hpos' := Nat.two_pow_pos j
  have hle : a ≤ a * 2 ^ i := Nat.le_mul_of_pos_right a hpos
  have hle' : b ≤ b * 2 ^ j := Nat.le_mul_of_pos_right b hpos'
  unfold packFat
  simp only [BitVec.ofInt_natCast, BitVec.toNat_setWidth, BitVec.toNat_or, BitVec.toNat_shiftLeft,
    BitVec.toNat_ofNat]
  rw [Nat.mod_eq_of_lt (a := a) (by omega), Nat.mod_eq_of_lt (a := b) (by omega),
    Nat.mod_eq_of_lt (a := c) (by omega), Nat.mod_eq_of_lt (a := a <<< i),
    Nat.mod_eq_of_lt (a := b <<< j), hor, Nat.mod_eq_of_lt (by omega)]
  · rw [Nat.shiftLeft_eq]
    omega
  · rw [Nat.shiftLeft_eq]
    omega

/-- The three fields of a packed word. -/
theorem packFat_fields {a b c i j : Nat} (hj : j ≤ i) (hi : i ≤ 16) (ha : a < 2 ^ (16 - i))
    (hb : b < 2 ^ (i - j)) (hc : c < 2 ^ j) :
    (packFat a i b j c >>> i).toNat = a ∧
      (packFat a i b j c >>> j &&& BitVec.ofNat 16 (2 ^ (i - j) - 1)).toNat = b ∧
      (packFat a i b j c &&& BitVec.ofNat 16 (2 ^ j - 1)).toNat = c := by
  have hmask {k : Nat} (hk : k ≤ 16) : (BitVec.ofNat 16 (2 ^ k - 1)).toNat = 2 ^ k - 1 := by
    have := Nat.pow_le_pow_right (n := 2) (by decide) hk
    exact Nat.mod_eq_of_lt (by omega)
  have hpow : 2 ^ i = 2 ^ (i - j) * 2 ^ j := by rw [← Nat.pow_add, Nat.sub_add_cancel hj]
  have hhigh : a * 2 ^ i + b * 2 ^ j = 2 ^ j * (2 ^ (i - j) * a + b) := by
    rw [hpow]
    ring
  have hlow : b * 2 ^ j + c < 2 ^ i := by
    calc b * 2 ^ j + c < (b + 1) * 2 ^ j := by rw [Nat.add_one_mul]; omega
      _ ≤ 2 ^ (i - j) * 2 ^ j := Nat.mul_le_mul_right _ hb
      _ = 2 ^ i := hpow.symm
  refine ⟨?_, ?_, ?_⟩
  · rw [BitVec.toNat_ushiftRight, packFat_toNat hj hi ha hb hc, Nat.shiftRight_eq_div_pow,
      Nat.add_assoc, Nat.mul_comm, Nat.mul_add_div (Nat.two_pow_pos i), Nat.div_eq_of_lt hlow,
      Nat.add_zero]
  · rw [BitVec.toNat_and, hmask (by omega), BitVec.toNat_ushiftRight,
      packFat_toNat hj hi ha hb hc, Nat.shiftRight_eq_div_pow, Nat.and_two_pow_sub_one_eq_mod,
      hhigh, Nat.mul_add_div (Nat.two_pow_pos j), Nat.div_eq_of_lt hc, Nat.add_zero,
      Nat.mul_add_mod, Nat.mod_eq_of_lt hb]
  · rw [BitVec.toNat_and, hmask (by omega), packFat_toNat hj hi ha hb hc,
      Nat.and_two_pow_sub_one_eq_mod, hhigh, Nat.mul_add_mod, Nat.mod_eq_of_lt hc]

/-! ### The closed formula is the calendar -/

theorem monthStart_eq : ∀ leap : Bool, ∀ m < 13, monthStart leap m =
    daysInYear.getD m 0 + if leap ∧ m > 2 then 1 else 0 := by
  decide

theorem isLeapYear_iff {year : Int} (h : 0 ≤ year ∧ year ≤ 127) :
    isLeapYear year = decide (IsLeap (1980 + year)) := by
  unfold isLeapYear year2100
  rw [decide_eq_decide]
  unfold IsLeap
  omega

/-- The days that FAT counts for its 128 years are the days of the calendar, the missing leap
day of 2100 included. -/
theorem fatDays_eq {year d : Int} {m : Nat} (hyear : 0 ≤ year ∧ year ≤ 127) (hm : m ≤ 12) :
    fatDays year m (d - 1) = dayNumber (1980 + year) m d := by
  have hleap : fatLeapDay year m = (year + 3) / 4 - (if year > 120 then 1 else 0) +
      if IsLeap (1980 + year) ∧ m > 2 then 1 else 0 := by
    unfold fatLeapDay
    rw [Int.tdiv_eq_ediv_of_nonneg (by omega), isLeapYear_iff hyear]
    simp only [decide_eq_true_eq, year2100]
    split_ifs <;> omega
  have hstart : yearStart (1980 + year) =
      year * 365 + ((year + 3) / 4 - if year > 120 then 1 else 0) + 3652 := by
    unfold yearStart leapsBefore
    split_ifs <;> omega
  unfold fatDays dayNumber daysDelta
  rw [hleap, hstart, monthStart_eq _ m (by omega)]
  simp only [decide_eq_true_eq]
  omega

/-! ### The round trip -/

theorem dateWord_fields {year mon mday : Nat} (hyear : year ≤ 127)
    (hdate : ValidDate (1980 + year) mon mday) :
    (packFat year 9 mon 5 mday >>> 9).toNat = year ∧
      (packFat year 9 mon 5 mday >>> 5 &&& 0xf#16).toNat = mon ∧
      (packFat year 9 mon 5 mday &&& 0x1f#16).toNat = mday := by
  have hmday := hdate.day_le
  have hmon := hdate.2.1
  exact packFat_fields (a := year) (b := mon) (c := mday) (i := 9) (j := 5) (by decide)
    (by decide) (by omega) (by omega) (by omega)

/-- The local time that a stamp stands for, without the hundredths. -/
def localSecs (hour min sec year mon mday : Nat) : Int :=
  dayNumber (1980 + year) mon mday * 86400 + hour * 3600 + min * 60 + sec * 2

/-- What a stamp put together from a broken-down time converts to. -/
theorem fat2unix_packed {tz : FatTimeZone} {hour min sec year mon mday cs : Nat}
    (hhour : hour < 24) (hmin : min < 60) (hsec : sec < 30) (hyear : year ≤ 127)
    (hdate : ValidDate (1980 + year) mon mday) (hcs : cs < 200)
    (htz : -1440 ≤ tz.tzMinuteswest ∧ tz.tzMinuteswest ≤ 1440)
    (hlocal : 86400 ≤ localSecs hour min sec year mon mday)
    (hlocal' : localSecs hour min sec year mon mday ≤ 2147397247) :
    fatTimeFat2unix tz (packFat hour 11 min 5 sec) (packFat year 9 mon 5 mday)
        (BitVec.ofNat 8 cs) =
      ⟨localSecs hour min sec year mon mday + (if tz.tzUtc then 0 else tz.tzMinuteswest * 60) +
        (cs / 100 : Nat), (cs % 100 * 10000000 : Nat)⟩ := by
  have htime := packFat_fields (a := hour) (b := min) (c := sec) (i := 11) (j := 5) (by decide)
    (by decide) (by omega) (by omega) (by omega)
  simp only [Nat.reduceSub, Nat.reducePow] at htime
  obtain ⟨htime₁, htime₂, htime₃⟩ := htime
  obtain ⟨hword₁, hword₂, hword₃⟩ := dateWord_fields hyear hdate
  obtain ⟨hmon, hmon', hmday, -⟩ := hdate
  unfold localSecs at hlocal hlocal' ⊢
  have hdays : fatDays year mon (mday - 1) = dayNumber (1980 + year) mon mday :=
    fatDays_eq (by omega) hmon'
  unfold fatTimeFat2unix
  simp only [htime₁, htime₂, htime₃, hword₁, hword₂, hword₃, max_eq_right hmon,
    max_eq_right (show 1 ≤ mday by omega), hdays, secsPerDay]
  generalize dayNumber (1980 + year) mon mday = dn at *
  have hsecond : s32 (s32 (s32 ((sec : Int) * 2 + min * 60) + hour * (60 * 60)) +
      dn * (60 * 60 * 24)) = dn * 86400 + hour * 3600 + min * 60 + sec * 2 := by
    have hfirst : s32 ((sec : Int) * 2 + min * 60) = sec * 2 + min * 60 :=
      s32_of_bounds (by omega) (by omega)
    rw [hfirst, s32_of_bounds (x := sec * 2 + min * 60 + hour * (60 * 60)) (by omega) (by omega),
      s32_of_bounds (by omega) (by omega)]
    ring
  have hzone : s32 (dn * 86400 + hour * 3600 + min * 60 + sec * 2 + tz.tzMinuteswest * 60) =
      dn * 86400 + hour * 3600 + min * 60 + sec * 2 + tz.tzMinuteswest * 60 :=
    s32_of_bounds (by omega) (by omega)
  have hbyte : (BitVec.ofNat 8 cs).toNat = cs := Nat.mod_eq_of_lt (by omega)
  rw [hsecond, hzone, hbyte]
  by_cases hzero : cs = 0
  · rw [if_neg (by rw [hzero]; decide), hzero]
    split <;> simp
  · rw [if_pos]
    · rw [s32_of_bounds]
      · split <;> simp
      · split <;> omega
      · split <;> omega
    · intro h
      rw [h] at hbyte
      exact hzero hbyte.symm

/-- The FAT date and time of a Unix time within the range: what is stored, and that it is a day
of the calendar. -/
theorem unix2fat_eq {fuel : Nat} (hfuel : 3 ≤ fuel) {tz : FatTimeZone} {ts : Timespec}
    (htz : -1440 ≤ tz.tzMinuteswest ∧ tz.tzMinuteswest ≤ 1440)
    (hfrom : dayNumber 1980 1 3 * 86400 ≤ ts.tvSec)
    (hto : ts.tvSec ≤ 2 ^ 31 - 1 - 2 * 86400)
    (hnsec : 0 ≤ ts.tvNsec ∧ ts.tvNsec < 1000000000) :
    ∃ hour min sec year mon mday : Nat, (hour < 24 ∧ min < 60 ∧ sec < 30 ∧ year ≤ 127) ∧
      ValidDate (1980 + year) mon mday ∧
      localSecs hour min sec year mon mday + (if tz.tzUtc then 0 else tz.tzMinuteswest * 60) =
        ts.tvSec / 2 * 2 ∧
      ∀ wantCs, fatTimeUnix2fat fuel tz wantCs ts =
        some ⟨packFat hour 11 min 5 sec, packFat year 9 mon 5 mday, if wantCs then
          some (BitVec.ofNat 8 ((ts.tvSec % 2 * 100 + ts.tvNsec / 10000000).toNat)) else none⟩ := by
  change 3654 * 86400 ≤ ts.tvSec at hfrom
  have hoffset : s32 (-tz.tzMinuteswest * 60) = -tz.tzMinuteswest * 60 :=
    s32_of_bounds (by omega) (by omega)
  have hbounds : -86400 ≤ (if tz.tzUtc then 0 else -tz.tzMinuteswest * 60) ∧
      (if tz.tzUtc then 0 else -tz.tzMinuteswest * 60) ≤ 86400 := by
    split <;> omega
  obtain ⟨tm, htm, hvalid, htotal⟩ := timeToTm_spec hfuel (t := ts.tvSec) (by omega) hbounds
  obtain ⟨hsec, hmin, hhour, hdate, -, -⟩ := hvalid
  have hday := hdate.bounds
  unfold Tm.total at htotal
  have hyear : 80 ≤ tm.year ∧ tm.year ≤ 138 := by
    generalize dayNumber (tm.year + 1900) (tm.mon + 1) tm.mday = dn at *
    unfold yearStart leapsBefore at hday
    omega
  have hcs : BitVec.ofInt 8 (ts.tvSec % 2 * 100 + ts.tvNsec.tdiv 10000000) =
      BitVec.ofNat 8 (ts.tvSec % 2 * 100 + ts.tvNsec / 10000000).toNat := by
    rw [Int.tdiv_eq_ediv_of_nonneg hnsec.1, ← BitVec.ofInt_natCast, Int.toNat_of_nonneg (by omega)]
  have hour_eq : (tm.hour.toNat : Int) = tm.hour := Int.toNat_of_nonneg hhour.1
  have min_eq : (tm.min.toNat : Int) = tm.min := Int.toNat_of_nonneg hmin.1
  have sec_eq : ((tm.sec / 2).toNat : Int) = tm.sec / 2 := Int.toNat_of_nonneg (by omega)
  have year_eq : ((tm.year - 80).toNat : Int) = tm.year - 80 := Int.toNat_of_nonneg (by omega)
  have mday_eq : (tm.mday.toNat : Int) = tm.mday :=
    Int.toNat_of_nonneg (by have := hdate.2.2.1; omega)
  have year_eq' : (1980 + (tm.year - 80).toNat : Int) = tm.year + 1900 := by omega
  refine ⟨tm.hour.toNat, tm.min.toNat, (tm.sec / 2).toNat, (tm.year - 80).toNat, tm.mon + 1,
    tm.mday.toNat, by omega, ?_, ?_, ?_⟩
  · rw [year_eq', mday_eq]
    exact hdate
  · unfold localSecs
    rw [year_eq', mday_eq, hour_eq, min_eq, sec_eq]
    by_cases hutc : tz.tzUtc
    · rw [if_pos hutc] at htotal ⊢
      omega
    · rw [if_neg hutc] at htotal ⊢
      omega
  · intro wantCs
    unfold fatTimeUnix2fat
    rw [hoffset, htm, hour_eq, min_eq, sec_eq, year_eq, mday_eq, hcs]
    simp only [Option.bind_eq_bind, Option.bind_some]
    rw [if_neg (by omega), if_neg (by omega)]
    simp

/-- Every time from 3 January 1980 to two days before the end of 32-bit time survives its
conversion to FAT and back, in every time zone: to hundredths of a second with the centisecond
byte, to two seconds without it. The date stored is a day of the calendar. -/
theorem fat_time_round_trip {fuel : Nat} (hfuel : 3 ≤ fuel) (tz : FatTimeZone) (ts : Timespec)
    (htz : -1440 ≤ tz.tzMinuteswest ∧ tz.tzMinuteswest ≤ 1440)
    (hfrom : dayNumber 1980 1 3 * 86400 ≤ ts.tvSec)
    (hto : ts.tvSec ≤ 2 ^ 31 - 1 - 2 * 86400)
    (hnsec : 0 ≤ ts.tvNsec ∧ ts.tvNsec < 1000000000) :
    ∃ time date cs, fatTimeUnix2fat fuel tz true ts = some ⟨time, date, some cs⟩ ∧
      fatTimeUnix2fat fuel tz false ts = some ⟨time, date, none⟩ ∧
      fatTimeFat2unix tz time date cs = ⟨ts.tvSec, ts.tvNsec / 10000000 * 10000000⟩ ∧
      fatTimeFat2unix tz time date 0#8 = ⟨ts.tvSec / 2 * 2, 0⟩ ∧
      ValidDate (1980 + (date >>> 9).toNat) ((date >>> 5) &&& 0xf#16).toNat
        (date &&& 0x1f#16).toNat := by
  obtain ⟨hour, min, sec, year, mon, mday, ⟨hhour, hmin, hsec, hyear⟩, hdate, hlocal, hstamp⟩ :=
    unix2fat_eq hfuel htz hfrom hto hnsec
  change 3654 * 86400 ≤ ts.tvSec at hfrom
  have hrange : 86400 ≤ localSecs hour min sec year mon mday ∧
      localSecs hour min sec year mon mday ≤ 2147397247 := by
    split at hlocal <;> omega
  refine ⟨_, _, _, hstamp true, hstamp false, ?_, ?_, ?_⟩
  · rw [fat2unix_packed hhour hmin hsec hyear hdate (by omega) htz hrange.1 hrange.2, hlocal]
    have hcs : ((ts.tvSec % 2 * 100 + ts.tvNsec / 10000000).toNat : Int) =
        ts.tvSec % 2 * 100 + ts.tvNsec / 10000000 := Int.toNat_of_nonneg (by omega)
    generalize (ts.tvSec % 2 * 100 + ts.tvNsec / 10000000).toNat = cs at *
    rw [Timespec.mk.injEq]
    omega
  · rw [fat2unix_packed hhour hmin hsec hyear hdate (by omega) htz hrange.1 hrange.2, hlocal]
    simp
  · obtain ⟨hword₁, hword₂, hword₃⟩ := dateWord_fields hyear hdate
    rw [hword₁, hword₂, hword₃]
    exact hdate

/-- Almost two seconds into the leap day of 2000, one hour west of Greenwich, where it is still
the day before. -/
theorem fat_time_round_trip_leap_day :
    fatTimeUnix2fat 3 ⟨false, 60⟩ true ⟨951782401, 999999999⟩ =
        some ⟨packFat 23 11 0 5 0, packFat 20 9 2 5 28, some 199#8⟩ ∧
      fatTimeFat2unix ⟨false, 60⟩ (packFat 23 11 0 5 0) (packFat 20 9 2 5 28) 199#8 =
        ⟨951782401, 990000000⟩ := by
  obtain ⟨time, date, cs, hcs, -, hback, -⟩ := fat_time_round_trip (le_refl 3) ⟨false, 60⟩
    ⟨951782401, 999999999⟩ (by decide) (by decide) (by decide) (by decide)
  have hstamp : fatTimeUnix2fat 3 ⟨false, 60⟩ true ⟨951782401, 999999999⟩ =
      some ⟨packFat 23 11 0 5 0, packFat 20 9 2 5 28, some 199#8⟩ := by decide
  rw [hstamp] at hcs
  cases hcs
  exact ⟨hstamp, hback⟩

end LinuxStm32.Fs
