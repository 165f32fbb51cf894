import LinuxStm32.Drivers.Rtc.RtcStm32f2

/-!
# Reading and setting the time

`stm32f2_rtc_read_time` reads TR three times and DR four times while the calendar advances; the date
is frozen only from the first read of TR to the first read of DR.
-/

namespace LinuxStm32.Drivers.Rtc

/-! ### The calendar -/

namespace Calendar

/-- The fields have values of a date and a time. -/
structure InRange (c : Calendar) : Prop where
  sec : c.sec < 60
  min : c.min < 60
  hour : c.hour < 24
  mday : 1 ≤ c.mday ∧ c.mday ≤ 31
  mon : 1 ≤ c.mon ∧ c.mon ≤ 12
  year : c.year < 100
  wday : 1 ≤ c.wday ∧ c.wday ≤ 7

/-- The time the calendar shows, as the kernel counts months, years and days of the week. -/
def toTm (c : Calendar) : RtcTime where
  tmSec := c.sec
  tmMin := c.min
  tmHour := c.hour
  tmMday := c.mday
  tmMon := c.mon - 1
  tmYear := c.year + 100
  tmWday := (c.wday % 7 : Nat)

variable {c : Calendar}

theorem monthDays_le (c : Calendar) : c.monthDays ≤ 31 := by
  unfold monthDays
  split
  · split
    · decide
    · decide
  all_goals decide

theorem InRange.nextDay (h : c.InRange) : c.nextDay.InRange := by
  have hdays := ({ c with wday := c.wday % 7 + 1 } : Calendar).monthDays_le
  have hwday : 1 ≤ c.wday % 7 + 1 ∧ c.wday % 7 + 1 ≤ 7 := by omega
  have hmon := h.mon
  have hfirst : 1 ≤ 1 ∧ 1 ≤ 31 := by decide
  have hjan : 1 ≤ 1 ∧ 1 ≤ 12 := by decide
  unfold Calendar.nextDay
  dsimp only
  split
  next hmore =>
    have hmday : 1 ≤ c.mday + 1 ∧ c.mday + 1 ≤ 31 := by omega
    exact ⟨h.sec, h.min, h.hour, hmday, hmon, h.year, hwday⟩
  next =>
    split
    next hlt =>
      have hnext : 1 ≤ c.mon + 1 ∧ c.mon + 1 ≤ 12 := by omega
      exact ⟨h.sec, h.min, h.hour, hfirst, hnext, h.year, hwday⟩
    next => exact ⟨h.sec, h.min, h.hour, hfirst, hjan, Nat.mod_lt _ (by decide), hwday⟩

theorem nextDay_sec (c : Calendar) : c.nextDay.sec = c.sec := by
  unfold nextDay
  dsimp only
  split
  · rfl
  · split
    · rfl
    · rfl

theorem InRange.tick (h : c.InRange) : c.tick.InRange ∧ c.tick.sec = (c.sec + 1) % 60 := by
  have hsec := h.sec
  have hzero : 0 < 60 := by decide
  have hzero' : 0 < 24 := by decide
  unfold Calendar.tick
  split
  next hlt =>
    have hmore : c.sec + 1 < 60 := by omega
    exact ⟨⟨hmore, h.min, h.hour, h.mday, h.mon, h.year, h.wday⟩, (Nat.mod_eq_of_lt hmore).symm⟩
  next hge =>
    have hwrap : (c.sec + 1) % 60 = 0 := by omega
    rw [hwrap]
    split
    next hmin =>
      have hmore : c.min + 1 < 60 := by omega
      exact ⟨⟨hzero, hmore, h.hour, h.mday, h.mon, h.year, h.wday⟩, rfl⟩
    next =>
      split
      next hhour =>
        have hmore : c.hour + 1 < 24 := by omega
        exact ⟨⟨hzero, hzero, hmore, h.mday, h.mon, h.year, h.wday⟩, rfl⟩
      next =>
        have hday : ({ c with sec := 0, min := 0, hour := 0 } : Calendar).InRange :=
          ⟨hzero, hzero, hzero', h.mday, h.mon, h.year, h.wday⟩
        exact ⟨hday.nextDay, nextDay_sec _⟩

theorem InRange.after (h : c.InRange) (n : Nat) :
    (c.after n).InRange ∧ (c.after n).sec = (c.sec + n) % 60 := by
  induction n with
  | zero => exact ⟨h, (Nat.mod_eq_of_lt h.sec).symm⟩
  | succ n ih =>
    obtain ⟨hr, hs⟩ := ih.1.tick
    refine ⟨hr, ?_⟩
    rw [Calendar.after, hs, ih.2]
    omega

theorem after_add (c : Calendar) (m n : Nat) : c.after (m + n) = (c.after m).after n := by
  induction n with
  | zero => rfl
  | succ n ih => rw [← Nat.add_assoc, after, ih, after]

/-! ### The registers of a calendar -/

theorem tr_fields (c : Calendar) :
    c.tr &&& trSecMsk = putBcd c.sec 0 trSecMsk &&& trSecMsk ∧
      c.tr &&& trMinMsk = putBcd c.min 8 trMinMsk &&& trMinMsk ∧
      c.tr &&& trHourMsk = putBcd c.hour 16 trHourMsk &&& trHourMsk := by
  simp [tr, putBcd, BitVec.and_assoc, BitVec.and_or_distrib_right, trSecMsk, trMinMsk, trHourMsk]

theorem dr_fields (c : Calendar) :
    c.dr &&& drMdayMsk = putBcd c.mday 0 drMdayMsk &&& drMdayMsk ∧
      c.dr &&& drMonMsk = putBcd c.mon 8 drMonMsk &&& drMonMsk ∧
      c.dr &&& drYearMsk = putBcd c.year 16 drYearMsk &&& drYearMsk ∧
      c.dr &&& drWdayMsk = (BitVec.ofNat 32 c.wday <<< 13) &&& drWdayMsk := by
  simp [dr, putBcd, BitVec.and_assoc, BitVec.and_or_distrib_right, drMdayMsk, drMonMsk, drYearMsk,
    drWdayMsk]

theorem InRange.getBcd_tr (h : c.InRange) :
    getBcd c.tr 0 trSecMsk = c.sec ∧ getBcd c.tr 8 trMinMsk = c.min ∧
      getBcd c.tr 16 trHourMsk = c.hour := by
  obtain ⟨fsec, fmin, fhour⟩ := c.tr_fields
  have hs : TwoDigits 0 trSecMsk 60 := by decide
  have hm : TwoDigits 8 trMinMsk 60 := by decide
  have hh : TwoDigits 16 trHourMsk 24 := by decide
  have hsec := h.sec
  have hmin := h.min
  have hhour := h.hour
  exact ⟨(getBcd_congr fsec).trans (hs.get (by omega) (by omega)),
    (getBcd_congr fmin).trans (hm.get (by omega) (by omega)),
    (getBcd_congr fhour).trans (hh.get (by omega) (by omega))⟩

theorem InRange.getBcd_dr (h : c.InRange) :
    getBcd c.dr 0 drMdayMsk = c.mday ∧ getBcd c.dr 8 drMonMsk = c.mon ∧
      getBcd c.dr 16 drYearMsk = c.year ∧ getWday c.dr 13 drWdayMsk = (c.wday % 7 : Nat) := by
  obtain ⟨fmday, fmon, fyear, fwday⟩ := c.dr_fields
  have hd : TwoDigits 0 drMdayMsk 32 := by decide
  have hm : TwoDigits 8 drMonMsk 13 := by decide
  have hy : TwoDigits 16 drYearMsk 100 := by decide
  have hw : ∀ w < 8,
      ((((BitVec.ofNat 32 w <<< 13) &&& drWdayMsk) >>> 13) % 7#32).toNat = w % 7 := by
    decide
  have hmday := h.mday
  have hmon := h.mon
  have hyear := h.year
  have hwday := h.wday
  refine ⟨(getBcd_congr fmday).trans (hd.get (by omega) (by omega)),
    (getBcd_congr fmon).trans (hm.get (by omega) (by omega)),
    (getBcd_congr fyear).trans (hy.get (by omega) (by omega)), ?_⟩
  rw [getWday, fwday, hw c.wday (by omega)]

end Calendar

/-! ### Reading -/

/-- The seconds that pass before read `i`. -/
def elapsed (n : Nat → Nat) (i : Nat) : Nat := ((List.range i).map n).sum

theorem elapsed_succ (n : Nat → Nat) (i : Nat) : elapsed n (i + 1) = elapsed n i + n i := by
  rw [elapsed, List.range_succ, List.map_append, List.sum_append, elapsed]
  simp

theorem elapsed_mono (n : Nat → Nat) {i j : Nat} (h : i ≤ j) : elapsed n i ≤ elapsed n j := by
  induction h with
  | refl => exact Nat.le_refl _
  | step _ ih =>
    rw [Nat.succ_eq_add_one, elapsed_succ]
    omega

namespace Stm32f2Rtc

variable {s : Stm32f2Rtc}

/-- The calendar at read `i`. -/
def calAt (s : Stm32f2Rtc) (n : Nat → Nat) (i : Nat) : Calendar := s.cal.after (elapsed n (i + 1))

theorem calAt_zero (s : Stm32f2Rtc) (n : Nat → Nat) : s.calAt n 0 = s.cal.after (n 0) := by
  rw [calAt, elapsed_succ]
  exact congrArg _ (Nat.zero_add _)

theorem calAt_succ (s : Stm32f2Rtc) (n : Nat → Nat) (i : Nat) :
    s.calAt n (i + 1) = (s.calAt n i).after (n (i + 1)) := by
  rw [calAt, elapsed_succ, Calendar.after_add, calAt]

/-- Each field comes from the calendar at the read of its own; the day of the month from that at
the first read. -/
theorem readTime_eq (hcal : s.cal.InRange) (hfrozen : s.frozen = none) (n : Nat → Nat) :
    (s.readTime n).1 =
      { tmSec := (s.calAt n 0).sec
        tmMin := (s.calAt n 1).min
        tmHour := (s.calAt n 2).hour
        tmMday := (s.calAt n 0).mday
        tmMon := (s.calAt n 4).mon - 1
        tmYear := (s.calAt n 5).year + 100
        tmWday := ((s.calAt n 6).wday % 7 : Nat) } := by
  have hr : ∀ i, (s.calAt n i).InRange := fun i => (hcal.after _).1
  rw [← (hr 0).getBcd_tr.1, ← (hr 1).getBcd_tr.2.1, ← (hr 2).getBcd_tr.2.2,
    ← (hr 0).getBcd_dr.1, ← (hr 4).getBcd_dr.2.1, ← (hr 5).getBcd_dr.2.2.1,
    ← (hr 6).getBcd_dr.2.2.2]
  simp only [calAt_succ, calAt_zero, readTime, wait, readTr, readDr, hfrozen, Option.getD_none,
    Option.getD_some]

end Stm32f2Rtc

/-- The time that is read is one that the calendar showed during the call. -/
def Snapshot (s : Stm32f2Rtc) (n : Nat → Nat) : Prop :=
  ∃ k ≤ elapsed n 8, (s.readTime n).1 = (s.cal.after k).toTm

/-- The minute, hour, month, year and day of the week are at their reads what they were at the first
read of TR. -/
structure NoRollover (s : Stm32f2Rtc) (n : Nat → Nat) : Prop where
  min : (s.calAt n 1).min = (s.calAt n 0).min
  hour : (s.calAt n 2).hour = (s.calAt n 0).hour
  mon : (s.calAt n 4).mon = (s.calAt n 0).mon
  year : (s.calAt n 5).year = (s.calAt n 0).year
  wday : (s.calAt n 6).wday = (s.calAt n 0).wday

section Read

variable {s : Stm32f2Rtc} {n : Nat → Nat}

theorem NoRollover.snapshot (h : NoRollover s n) (hcal : s.cal.InRange)
    (hfrozen : s.frozen = none) :
    Snapshot s n := by
  refine ⟨elapsed n 1, elapsed_mono n (by decide), ?_⟩
  rw [Stm32f2Rtc.readTime_eq hcal hfrozen, h.min, h.hour, h.mon, h.year, h.wday]
  rfl

/-- In less than a minute no second is shown twice. -/
theorem Snapshot.noRollover (h : Snapshot s n) (hcal : s.cal.InRange) (hfrozen : s.frozen = none)
    (hshort : elapsed n 8 < 60) : NoRollover s n := by
  obtain ⟨k, hk, htm⟩ := h
  rw [Stm32f2Rtc.readTime_eq hcal hfrozen] at htm
  have hle := elapsed_mono n (show 1 ≤ 8 by decide)
  have hsec : ((s.cal.after (elapsed n 1)).sec : Int) = (s.cal.after k).sec :=
    congrArg RtcTime.tmSec htm
  rw [(hcal.after k).2, (hcal.after _).2] at hsec
  obtain rfl : k = elapsed n 1 := by omega
  have hat : s.cal.after (elapsed n 1) = s.calAt n 0 := rfl
  rw [hat] at htm
  have hw : 1 ≤ (s.calAt n 0).wday ∧ (s.calAt n 0).wday ≤ 7 := (hcal.after _).1.wday
  have hw' : 1 ≤ (s.calAt n 6).wday ∧ (s.calAt n 6).wday ≤ 7 := (hcal.after _).1.wday
  constructor
  · exact Int.ofNat.inj (congrArg RtcTime.tmMin htm)
  · exact Int.ofNat.inj (congrArg RtcTime.tmHour htm)
  · have hmon := congrArg RtcTime.tmMon htm
    simp only [Calendar.toTm] at hmon
    omega
  · have hyear := congrArg RtcTime.tmYear htm
    simp only [Calendar.toTm] at hyear
    omega
  · have hwday := congrArg RtcTime.tmWday htm
    simp only [Calendar.toTm] at hwday
    omega

end Read

/-! ### Setting -/

/-- A time of the years 2000 to 2099, with a day of the week. -/
def InCentury (tm : RtcTime) : Prop :=
  rtcValidTm tm = true ∧ (100 ≤ tm.tmYear ∧ tm.tmYear ≤ 199) ∧ 0 ≤ tm.tmWday ∧ tm.tmWday ≤ 6

/-- The calendar that shows a time. -/
def RtcTime.toCalendar (tm : RtcTime) : Calendar where
  sec := tm.tmSec.toNat
  min := tm.tmMin.toNat
  hour := tm.tmHour.toNat
  mday := tm.tmMday.toNat
  mon := (tm.tmMon + 1).toNat
  year := (tm.tmYear - 100).toNat
  wday := (if tm.tmWday ≠ 0 then tm.tmWday else 7).toNat

theorem InCentury.toCalendar {tm : RtcTime} (h : InCentury tm) :
    tm.toCalendar.InRange ∧ tm.toCalendar.toTm = tm := by
  obtain ⟨hvalid, hyear, hwday⟩ := h
  obtain ⟨hmon, hmday, hhour, hmin, hsec⟩ := rtcValidTm_bounds hvalid
  have hw : 1 ≤ tm.toCalendar.wday ∧ tm.toCalendar.wday ≤ 7 ∧
      ((tm.toCalendar.wday % 7 : Nat) : Int) = tm.tmWday := by
    unfold RtcTime.toCalendar
    dsimp only
    split
    next => omega
    next => omega
  constructor
  · refine ⟨?_, ?_, ?_, ?_, ?_, ?_, ⟨hw.1, hw.2.1⟩⟩
    all_goals
      unfold RtcTime.toCalendar
      dsimp only
      omega
  · ext
    · exact Int.toNat_of_nonneg hsec.1
    · exact Int.toNat_of_nonneg hmin.1
    · exact Int.toNat_of_nonneg hhour.1
    · exact Int.toNat_of_nonneg (by omega)
    · simp only [Calendar.toTm, RtcTime.toCalendar]
      omega
    · simp only [Calendar.toTm, RtcTime.toCalendar]
      omega
    · exact hw.2.2

/-- A write to TR with fields put beside bits outside of them. -/
theorem setTr_fields {c : Calendar} {x v : BitVec 32} {sec min hour : Int}
    (hv : v = (x &&& ~~~(trSecMsk ||| trMinMsk ||| trHourMsk)) ||| putBcd sec 0 trSecMsk |||
      putBcd min 8 trMinMsk ||| putBcd hour 16 trHourMsk)
    (hsec : 0 ≤ sec ∧ sec < 60) (hmin : 0 ≤ min ∧ min < 60) (hhour : 0 ≤ hour ∧ hour < 24) :
    c.setTr v = { c with sec := sec.toNat, min := min.toNat, hour := hour.toNat } := by
  have hs : TwoDigits 0 trSecMsk 60 := by decide
  have hm : TwoDigits 8 trMinMsk 60 := by decide
  have hh : TwoDigits 16 trHourMsk 24 := by decide
  obtain ⟨fsec, fmin, fhour⟩ : v &&& trSecMsk = putBcd sec 0 trSecMsk &&& trSecMsk ∧
      v &&& trMinMsk = putBcd min 8 trMinMsk &&& trMinMsk ∧
      v &&& trHourMsk = putBcd hour 16 trHourMsk &&& trHourMsk := by
    rw [hv]
    simp [putBcd, BitVec.and_assoc, BitVec.and_or_distrib_right, trSecMsk, trMinMsk, trHourMsk]
  rw [Calendar.setTr, (getBcd_congr fsec).trans (hs.get hsec.1 hsec.2),
    (getBcd_congr fmin).trans (hm.get hmin.1 hmin.2),
    (getBcd_congr fhour).trans (hh.get hhour.1 hhour.2)]

/-- A write to DR with fields put beside bits outside of them. -/
theorem setDr_fields {c : Calendar} {x v : BitVec 32} {mday mon year wday : Int}
    (hv : v = (x &&& ~~~(drMdayMsk ||| drMonMsk ||| drYearMsk ||| drWdayMsk)) |||
      putBcd mday 0 drMdayMsk ||| putBcd mon 8 drMonMsk ||| putBcd year 16 drYearMsk |||
      putWday wday 13 drWdayMsk)
    (hmday : 0 ≤ mday ∧ mday < 32) (hmon : 0 ≤ mon ∧ mon < 13) (hyear : 0 ≤ year ∧ year < 100)
    (hwday : 0 ≤ wday ∧ wday ≤ 6) :
    c.setDr v = { c with mday := mday.toNat, mon := mon.toNat, year := year.toNat,
                         wday := (if wday ≠ 0 then wday else 7).toNat } := by
  have hd : TwoDigits 0 drMdayMsk 32 := by decide
  have hm : TwoDigits 8 drMonMsk 13 := by decide
  have hy : TwoDigits 16 drYearMsk 100 := by decide
  have hw : ∀ w < 7, ((putWday (w : Nat) 13 drWdayMsk &&& drWdayMsk) >>> 13).toNat =
      (if (w : Int) ≠ 0 then (w : Int) else 7).toNat := by
    decide
  obtain ⟨fmday, fmon, fyear, fwday⟩ : v &&& drMdayMsk = putBcd mday 0 drMdayMsk &&& drMdayMsk ∧
      v &&& drMonMsk = putBcd mon 8 drMonMsk &&& drMonMsk ∧
      v &&& drYearMsk = putBcd year 16 drYearMsk &&& drYearMsk ∧
      v &&& drWdayMsk = putWday wday 13 drWdayMsk &&& drWdayMsk := by
    rw [hv]
    simp [putBcd, putWday, BitVec.and_assoc, BitVec.and_or_distrib_right, drMdayMsk, drMonMsk,
      drYearMsk, drWdayMsk]
  have hwv := hw wday.toNat (by omega)
  rw [show ((wday.toNat : Nat) : Int) = wday by omega] at hwv
  rw [Calendar.setDr, (getBcd_congr fmday).trans (hd.get hmday.1 hmday.2),
    (getBcd_congr fmon).trans (hm.get hmon.1 hmon.2),
    (getBcd_congr fyear).trans (hy.get hyear.1 hyear.2), fwday, hwv]

namespace Stm32f2Rtc

variable {s : Stm32f2Rtc}

/-- Initialisation mode is entered. -/
theorem enableInitMode_true (h : s.unlocked = true) :
    ∃ t, s.enableInitMode true = some t ∧ t.unlocked = true ∧ t.isr &&& isrInitf ≠ 0#32 := by
  rw [enableInitMode, if_pos rfl]
  by_cases hinit : s.isr &&& isrInitf = 0#32
  · have hset : (s.writeIsr isrInit).isr &&& isrInitf ≠ 0#32 := by
      rw [writeIsr, if_pos h]
      simp [BitVec.and_assoc, BitVec.and_or_distrib_right, isrInit, isrInitf, isrClearable,
        isrEvents, isrRsf]
    have hunlocked : (s.writeIsr isrInit).unlocked = true := by
      rw [writeIsr, if_pos h]
      exact h
    rw [if_pos hinit, poll, if_neg hset]
    exact ⟨_, rfl, hunlocked, hset⟩
  · rw [if_neg hinit]
    exact ⟨s, rfl, h, hinit⟩

/-- Leaving initialisation mode keeps the calendar. -/
theorem enableInitMode_false (s : Stm32f2Rtc) :
    ∃ t, s.enableInitMode false = some t ∧ t.cal = s.cal ∧ t.frozen = s.frozen := by
  rw [enableInitMode, if_neg Bool.false_ne_true]
  refine ⟨_, rfl, ?_⟩
  rw [writeIsr]
  split
  · exact ⟨rfl, rfl⟩
  · exact ⟨rfl, rfl⟩

/-- Setting the time sets the calendar. -/
theorem setTime_spec (s : Stm32f2Rtc) {tm : RtcTime} (h : InCentury tm) :
    ∃ s', s.setTime tm = some s' ∧ s'.cal = tm.toCalendar ∧ s'.frozen = none := by
  obtain ⟨hvalid, hyear, hwday⟩ := h
  obtain ⟨hmon, hmday, hhour, hmin, hsec⟩ := rtcValidTm_bounds hvalid
  obtain ⟨t, ht, hopen⟩ := @enableInitMode_true (s.writeEnable true) rfl
  have hmod : tm.tmYear.tmod 100 = tm.tmYear - 100 := by
    rw [Int.tmod_eq_emod_of_nonneg (by omega)]
    omega
  have htr : (t.setTimeTr tm).unlocked = t.unlocked ∧ (t.setTimeTr tm).isr = t.isr ∧
      (t.setTimeTr tm).cal = { t.cal with sec := tm.tmSec.toNat, min := tm.tmMin.toNat,
                                          hour := tm.tmHour.toNat } := by
    rw [setTimeTr, readTr, writeTr, if_pos hopen]
    exact ⟨rfl, rfl, setTr_fields rfl hsec hmin hhour⟩
  have hopen' : (t.setTimeTr tm).unlocked = true ∧ (t.setTimeTr tm).isr &&& isrInitf ≠ 0#32 := by
    rw [htr.1, htr.2.1]
    exact hopen
  have hdr : ((t.setTimeTr tm).setTimeDr tm).cal = tm.toCalendar ∧
      ((t.setTimeTr tm).setTimeDr tm).frozen = none := by
    rw [setTimeDr, readDr, writeDr, if_pos hopen']
    refine ⟨?_, rfl⟩
    rw [hmod]
    refine (setDr_fields rfl (by omega) (by omega) (by omega) hwday).trans ?_
    rw [htr.2.2]
    rfl
  obtain ⟨u, hu, hcal, hfrozen⟩ := enableInitMode_false ((t.setTimeTr tm).setTimeDr tm)
  refine ⟨u.writeEnable false, ?_, hcal.trans hdr.1, hfrozen.trans hdr.2⟩
  rw [setTime, ht, Option.bind_some, hu, Option.map_some]

end Stm32f2Rtc

/-- From every state, calls that set the time and then read it, with no tick, return it. -/
theorem readTime_setTime (s : Stm32f2Rtc) {tm : RtcTime} (h : InCentury tm) :
    ∃ s', s.setTime tm = some s' ∧ (s'.readTime fun _ => 0).1 = tm := by
  obtain ⟨s', hset, hcal, hfrozen⟩ := s.setTime_spec h
  obtain ⟨hrange, htm⟩ := h.toCalendar
  refine ⟨s', hset, ?_⟩
  rw [Stm32f2Rtc.readTime_eq (by rwa [hcal]) hfrozen]
  conv => rhs; rw [← htm]
  rw [← hcal]
  rfl

/-- From every date and time and with any ticks between the reads, the time read is a snapshot if
no field that is read later rolled over since the first read of TR, and in calls of less than a
minute only then; a time that was set reads back. -/
theorem rtc_read_snapshot (s : Stm32f2Rtc) (n : Nat → Nat) :
    (s.cal.InRange → s.frozen = none → (NoRollover s n → Snapshot s n) ∧
      (elapsed n 8 < 60 → (Snapshot s n ↔ NoRollover s n))) ∧
      ∀ tm, InCentury tm → ∃ s', s.setTime tm = some s' ∧ (s'.readTime fun _ => 0).1 = tm := by
  refine ⟨fun hcal hfrozen => ⟨fun h => h.snapshot hcal hfrozen, fun hshort => ?_⟩,
    fun tm h => readTime_setTime s h⟩
  exact ⟨fun h => h.noRollover hcal hfrozen hshort, fun h => h.snapshot hcal hfrozen⟩

/-- A clock at the end of 2023, a Sunday. -/
def Stm32f2Rtc.newYearsEve : Stm32f2Rtc where
  cal := ⟨59, 59, 23, 31, 12, 23, 7⟩
  frozen := none
  cr := 0#32
  isr := 0#32
  alrmar := 0#32
  alrmbr := 0#32
  unlocked := false
  extiPr := 0#32

/-- The year turns before the first read. -/
theorem rtc_read_snapshot_new_year :
    Snapshot .newYearsEve (fun i => if i = 0 then 1 else 0) := by
  have hcal : Stm32f2Rtc.newYearsEve.cal.InRange :=
    ⟨by decide, by decide, by decide, by decide, by decide, by decide, by decide⟩
  apply ((rtc_read_snapshot .newYearsEve _).1 hcal rfl).1
  exact ⟨by decide, by decide, by decide, by decide, by decide⟩

/-- The year turns between the reads of TR and DR: the time read is Monday, 31 January 2024. -/
theorem rtc_read_torn :
    (Stm32f2Rtc.newYearsEve.readTime fun i => if i = 3 then 1 else 0).1 =
        ⟨59, 59, 23, 31, 0, 124, 1⟩ ∧
      ¬ Snapshot .newYearsEve (fun i => if i = 3 then 1 else 0) := by
  refine ⟨by decide, ?_⟩
  unfold Snapshot
  decide

end LinuxStm32.Drivers.Rtc
