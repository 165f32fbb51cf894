import LinuxStm32.Base.Field

/-!
# The real-time clock and its driver

`drivers/rtc/rtc-stm32f2.c:177–704`, with `lib/bcd.c` and `rtc_valid_tm` of
`drivers/rtc/rtc-lib.c`. Of the hardware: the calendar, whose date is frozen from a read of TR to
the next read of DR; the write protection; the flags of ISR that a write of 0 clears; initialisation
mode, which stops the calendar. INITF follows INIT and the write flags follow the enable bits, so
the loops that wait for them end with the next read. The wake-up counter, the interrupt handlers and
the locking, under which every function runs, are left out.
-/

namespace LinuxStm32.Drivers.Rtc

open Base

/-! ### Registers -/

/-- `STM32F2_RTC_CR_WUTIE_MSK`. -/
def crWutie : BitVec 32 := 1#32 <<< 14

/-- `STM32F2_RTC_CR_ALRBIE_MSK`. -/
def crAlrbie : BitVec 32 := 1#32 <<< 13

/-- `STM32F2_RTC_CR_ALRAIE_MSK`. -/
def crAlraie : BitVec 32 := 1#32 <<< 12

/-- `STM32F2_RTC_CR_WUTE_MSK`. -/
def crWute : BitVec 32 := 1#32 <<< 10

/-- `STM32F2_RTC_CR_ALRBE_MSK`. -/
def crAlrbe : BitVec 32 := 1#32 <<< 9

/-- `STM32F2_RTC_CR_ALRAE_MSK`. -/
def crAlrae : BitVec 32 := 1#32 <<< 8

/-- `STM32F2_RTC_ISR_WUTF_MSK`. -/
def isrWutf : BitVec 32 := 1#32 <<< 10

/-- `STM32F2_RTC_ISR_ALRBF_MSK`. -/
def isrAlrbf : BitVec 32 := 1#32 <<< 9

/-- `STM32F2_RTC_ISR_ALRAF_MSK`. -/
def isrAlraf : BitVec 32 := 1#32 <<< 8

/-- `STM32F2_RTC_ISR_INIT_MSK`. -/
def isrInit : BitVec 32 := 1#32 <<< 7

/-- `STM32F2_RTC_ISR_INITF_MSK`. -/
def isrInitf : BitVec 32 := 1#32 <<< 6

/-- `STM32F2_RTC_ISR_RSF_MSK`. -/
def isrRsf : BitVec 32 := 1#32 <<< 5

/-- `STM32F2_RTC_ISR_ALRBWF_MSK`. -/
def isrAlrbwf : BitVec 32 := 1#32 <<< 1

/-- `STM32F2_RTC_ISR_ALRAWF_MSK`. -/
def isrAlrawf : BitVec 32 := 1#32 <<< 0

/-- The event flags: those of the two alarms and of the wake-up timer, and above them those of the
time stamp and of the tamper inputs. -/
def isrEvents : BitVec 32 := 0xff#32 <<< 8

/-- The flags that a write of 0 clears. -/
def isrClearable : BitVec 32 := isrEvents ||| isrRsf

/-- `STM32F2_RTC_TR_SEC_MSK`. -/
def trSecMsk : BitVec 32 := 0x7f#32 <<< 0

/-- `STM32F2_RTC_TR_MIN_MSK`. -/
def trMinMsk : BitVec 32 := 0x7f#32 <<< 8

/-- `STM32F2_RTC_TR_HOUR_MSK`. -/
def trHourMsk : BitVec 32 := 0x3f#32 <<< 16

/-- `STM32F2_RTC_DR_MDAY_MSK`. -/
def drMdayMsk : BitVec 32 := 0x3f#32 <<< 0

/-- `STM32F2_RTC_DR_MON_MSK`. -/
def drMonMsk : BitVec 32 := 0x1f#32 <<< 8

/-- `STM32F2_RTC_DR_YEAR_MSK`. -/
def drYearMsk : BitVec 32 := 0xff#32 <<< 16

/-- `STM32F2_RTC_DR_WDAY_MSK`. -/
def drWdayMsk : BitVec 32 := 7#32 <<< 13

/-- `STM32F2_RTC_ALRMR_DATEMASK_MSK`. -/
def alrmDatemask : BitVec 32 := 1#32 <<< 31

/-- `STM32F2_RTC_ALRMR_HOURMASK_MSK`. -/
def alrmHourmask : BitVec 32 := 1#32 <<< 23

/-- `STM32F2_RTC_ALRMR_MINMASK_MSK`. -/
def alrmMinmask : BitVec 32 := 1#32 <<< 15

/-- `STM32F2_RTC_ALRMR_SECMASK_MSK`. -/
def alrmSecmask : BitVec 32 := 1#32 <<< 7

/-- `STM32F2_RTC_ALRMR_WDSEL_MSK`. -/
def alrmWdsel : BitVec 32 := 1#32 <<< 30

/-- `STM32F2_RTC_ALRMR_MDAY_MSK`. -/
def alrmMdayMsk : BitVec 32 := 0x3f#32 <<< 24

/-- `STM32F2_RTC_ALRMR_WDAY_MSK`. -/
def alrmWdayMsk : BitVec 32 := 7#32 <<< 24

/-- `STM32F2_RTC_ALRMR_HOUR_MSK`. -/
def alrmHourMsk : BitVec 32 := 0x3f#32 <<< 16

/-- `STM32F2_RTC_ALRMR_MIN_MSK`. -/
def alrmMinMsk : BitVec 32 := 0x7f#32 <<< 8

/-- `STM32F2_RTC_ALRMR_SEC_MSK`. -/
def alrmSecMsk : BitVec 32 := 0x7f#32 <<< 0

/-- `bcd2bin`, `lib/bcd.c:4`. -/
def bcd2bin (val : BitVec 8) : Int := (val &&& 0x0f#8).toNat + (val >>> 4).toNat * 10

/-- `bin2bcd`, `lib/bcd.c:10`: the argument is an `unsigned int`. -/
def bin2bcd (val : Int) : BitVec 8 :=
  let v := BitVec.ofInt 32 val
  (((v / 10#32) <<< 4) + v % 10#32).setWidth 8

/-- `(bin2bcd(val) << bits) & msk`. -/
def putBcd (val : Int) (bits : Nat) (msk : BitVec 32) : BitVec 32 :=
  ((bin2bcd val).setWidth 32 <<< bits) &&& msk

/-- `bcd2bin((reg & msk) >> bits)`. -/
def getBcd (reg : BitVec 32) (bits : Nat) (msk : BitVec 32) : Int :=
  bcd2bin (((reg &&& msk) >>> bits).setWidth 8)

/-- `((wday ? wday : 7) << bits) & msk`: the clock counts the days of the week from Monday, 1. -/
def putWday (wday : Int) (bits : Nat) (msk : BitVec 32) : BitVec 32 :=
  (BitVec.ofInt 32 (if wday ≠ 0 then wday else 7) <<< bits) &&& msk

/-- `((reg & msk) >> bits) % 7`. -/
def getWday (reg : BitVec 32) (bits : Nat) (msk : BitVec 32) : Int :=
  (((reg &&& msk) >>> bits) % 7#32).toNat

/-! ### The clock -/

/-- What the calendar shows; `year` has two digits, `wday` is 1 on Mondays. -/
structure Calendar where
  sec : Nat
  min : Nat
  hour : Nat
  mday : Nat
  mon : Nat
  year : Nat
  wday : Nat
  deriving DecidableEq, Repr

namespace Calendar

/-- The days of the month; every fourth year of the century is a leap year. -/
def monthDays (c : Calendar) : Nat :=
  match c.mon with
  | 2 => if c.year % 4 = 0 then 29 else 28
  | 4 | 6 | 9 | 11 => 30
  | _ => 31

/-- The next day. -/
def nextDay (c : Calendar) : Calendar :=
  let c := { c with wday := c.wday % 7 + 1 }
  if c.mday < c.monthDays then { c with mday := c.mday + 1 }
  else if c.mon < 12 then { c with mday := 1, mon := c.mon + 1 }
  else { c with mday := 1, mon := 1, year := (c.year + 1) % 100 }

/-- One second passes. -/
def tick (c : Calendar) : Calendar :=
  if c.sec < 59 then { c with sec := c.sec + 1 }
  else if c.min < 59 then { c with sec := 0, min := c.min + 1 }
  else if c.hour < 23 then { c with sec := 0, min := 0, hour := c.hour + 1 }
  else { c with sec := 0, min := 0, hour := 0 }.nextDay

/-- What the calendar shows after `n` seconds. -/
def after (c : Calendar) : Nat → Calendar
  | 0 => c
  | n + 1 => (c.after n).tick

/-- The value of TR. -/
def tr (c : Calendar) : BitVec 32 :=
  putBcd c.sec 0 trSecMsk ||| putBcd c.min 8 trMinMsk ||| putBcd c.hour 16 trHourMsk

/-- The value of DR. -/
def dr (c : Calendar) : BitVec 32 :=
  putBcd c.mday 0 drMdayMsk ||| putBcd c.mon 8 drMonMsk ||| putBcd c.year 16 drYearMsk |||
    ((BitVec.ofNat 32 c.wday <<< 13) &&& drWdayMsk)

/-- A write to TR. -/
def setTr (c : Calendar) (v : BitVec 32) : Calendar :=
  { c with
    sec := (getBcd v 0 trSecMsk).toNat
    min := (getBcd v 8 trMinMsk).toNat
    hour := (getBcd v 16 trHourMsk).toNat }

/-- A write to DR. -/
def setDr (c : Calendar) (v : BitVec 32) : Calendar :=
  { c with
    mday := (getBcd v 0 drMdayMsk).toNat
    mon := (getBcd v 8 drMonMsk).toNat
    year := (getBcd v 16 drYearMsk).toNat
    wday := ((v &&& drWdayMsk) >>> 13).toNat }

end Calendar

/-- The clock, and the pending register of the EXTI controller. `frozen` is the date that DR shows
after a read of TR; `unlocked` is set between the keys and the next write to WPR. -/
structure Stm32f2Rtc where
  cal : Calendar
  frozen : Option (BitVec 32)
  cr : BitVec 32
  isr : BitVec 32
  alrmar : BitVec 32
  alrmbr : BitVec 32
  unlocked : Bool
  extiPr : BitVec 32
  deriving DecidableEq, Repr

/-- The fields of `struct rtc_time` that the driver knows. -/
@[ext]
structure RtcTime where
  tmSec : Int
  tmMin : Int
  tmHour : Int
  tmMday : Int
  tmMon : Int
  tmYear : Int
  tmWday : Int
  deriving DecidableEq, Repr

/-- `struct rtc_wkalrm`. -/
structure RtcWkalrm where
  enabled : Bool
  pending : Bool
  time : RtcTime
  deriving DecidableEq, Repr

/-- `is_leap_year`. -/
def isLeapYear (year : Int) : Bool := (year % 4 == 0 && year % 100 != 0) || year % 400 == 0

/-- `rtc_month_days`, `drivers/rtc/rtc-lib.c:34`. -/
def rtcMonthDays (month : Nat) (year : Int) : Int :=
  ([31, 28, 31, 30, 31, 30, 31, 31, 30, 31, 30, 31].getD month 0) +
    (if isLeapYear year && month == 1 then 1 else 0)

/-- `rtc_valid_tm`, `drivers/rtc/rtc-lib.c:94`, returns 0. -/
def rtcValidTm (tm : RtcTime) : Bool :=
  !(decide (tm.tmYear < 70) || !decide (0 ≤ tm.tmMon ∧ tm.tmMon < 12) || decide (tm.tmMday < 1) ||
    decide (rtcMonthDays tm.tmMon.toNat (tm.tmYear + 1900) < tm.tmMday) ||
    !decide (0 ≤ tm.tmHour ∧ tm.tmHour < 24) || !decide (0 ≤ tm.tmMin ∧ tm.tmMin < 60) ||
    !decide (0 ≤ tm.tmSec ∧ tm.tmSec < 60))

namespace Stm32f2Rtc

/-- `n` seconds pass. -/
def wait (s : Stm32f2Rtc) (n : Nat) : Stm32f2Rtc := { s with cal := s.cal.after n }

/-- A read of TR freezes the date. -/
def readTr (s : Stm32f2Rtc) : BitVec 32 × Stm32f2Rtc :=
  (s.cal.tr, { s with frozen := some (s.frozen.getD s.cal.dr) })

/-- A read of DR. -/
def readDr (s : Stm32f2Rtc) : BitVec 32 × Stm32f2Rtc :=
  (s.frozen.getD s.cal.dr, { s with frozen := none })

/-- A write to TR. -/
def writeTr (s : Stm32f2Rtc) (v : BitVec 32) : Stm32f2Rtc :=
  if s.unlocked ∧ s.isr &&& isrInitf ≠ 0#32 then { s with cal := s.cal.setTr v } else s

/-- A write to DR. -/
def writeDr (s : Stm32f2Rtc) (v : BitVec 32) : Stm32f2Rtc :=
  if s.unlocked ∧ s.isr &&& isrInitf ≠ 0#32 then { s with cal := s.cal.setDr v } else s

/-- A write to CR. The write flags, bits 0 to 2 of ISR, are set while the enable bits of the alarms
and of the wake-up timer, bits 8 to 10 of CR, are clear. -/
def writeCr (s : Stm32f2Rtc) (v : BitVec 32) : Stm32f2Rtc :=
  if s.unlocked then { s with cr := v, isr := (s.isr &&& ~~~7#32) ||| ((~~~v >>> 8) &&& 7#32) }
  else s

/-- A write to ISR: flags are cleared by a 0, INIT is written, INITF follows it, and the other bits
are read-only. -/
def writeIsr (s : Stm32f2Rtc) (v : BitVec 32) : Stm32f2Rtc :=
  if s.unlocked then
    { s with
      isr := (s.isr &&& v &&& isrClearable) ||| (v &&& isrInit) ||| ((v &&& isrInit) >>> 1) |||
        (s.isr &&& ~~~(isrClearable ||| isrInit ||| isrInitf)) }
  else s

/-- A write to ALRMAR, possible while its write flag is set. -/
def writeAlrmar (s : Stm32f2Rtc) (v : BitVec 32) : Stm32f2Rtc :=
  if s.unlocked ∧ s.isr &&& isrAlrawf ≠ 0#32 then { s with alrmar := v } else s

/-- A write to ALRMBR. -/
def writeAlrmbr (s : Stm32f2Rtc) (v : BitVec 32) : Stm32f2Rtc :=
  if s.unlocked ∧ s.isr &&& isrAlrbwf ≠ 0#32 then { s with alrmbr := v } else s

/-- A loop that waits for a bit of ISR; no result if it does not end. -/
def poll (s : Stm32f2Rtc) (msk : BitVec 32) : Option Stm32f2Rtc :=
  if s.isr &&& msk = 0#32 then none else some s

/-- `stm32_exti_clear_pending`. -/
def extiClearPending (s : Stm32f2Rtc) (line : Nat) : Stm32f2Rtc :=
  { s with extiPr := clearBit s.extiPr line }

/-! ### The driver -/

/-- `stm32f2_rtc_write_enable`, `drivers/rtc/rtc-stm32f2.c:177`. -/
def writeEnable (s : Stm32f2Rtc) (enable : Bool) : Stm32f2Rtc := { s with unlocked := enable }

/-- `stm32f2_rtc_enable_init_mode`, `drivers/rtc/rtc-stm32f2.c:192`. -/
def enableInitMode (s : Stm32f2Rtc) (enable : Bool) : Option Stm32f2Rtc :=
  if enable then
    if s.isr &&& isrInitf = 0#32 then (s.writeIsr isrInit).poll isrInitf else some s
  else some (s.writeIsr (s.isr &&& ~~~isrInit))

/-- `stm32f2_rtc_irq_set_state`, `drivers/rtc/rtc-stm32f2.c:346`. -/
def irqSetState (s : Stm32f2Rtc) (enabled : Bool) : Stm32f2Rtc :=
  let s := s.writeEnable true
  let s := if enabled then s.writeCr (s.cr ||| (crWute ||| crWutie))
    else s.writeCr (s.cr &&& ~~~(crWute ||| crWutie))
  let s := s.writeIsr (s.isr &&& ~~~isrWutf)
  s.writeEnable false

/-- `stm32f2_alarm_irq_enable`, `drivers/rtc/rtc-stm32f2.c:380`. -/
def alarmIrqEnable (s : Stm32f2Rtc) (alarm : Nat) (enable : Bool) : Stm32f2Rtc :=
  let irqEnableMsk := if alarm ≠ 0 then crAlrbie else crAlraie
  -- the mask of Alarm A is complemented here and once more where it is used
  let irqFlagMsk := if alarm ≠ 0 then isrAlrbf else ~~~isrAlraf
  let s := s.writeEnable true
  let s := if enable then s.writeCr (s.cr ||| irqEnableMsk)
    else s.writeCr (s.cr &&& ~~~irqEnableMsk)
  let s := s.writeIsr (s.isr &&& ~~~irqFlagMsk)
  s.writeEnable false

/-- `stm32f2_rtc_alarm_irq_enable`, `drivers/rtc/rtc-stm32f2.c:403`. -/
def rtcAlarmIrqEnable (s : Stm32f2Rtc) (enabled : Bool) : Stm32f2Rtc := s.alarmIrqEnable 0 enabled

/-- The date part of the value for the alarm register. -/
def alarmDay (mday wday : Int) : BitVec 32 :=
  if mday < 0 ∧ wday < 0 then alrmDatemask
  else if 0 < mday then putBcd mday 24 alrmMdayMsk
  else alrmWdsel ||| putWday wday 24 alrmWdayMsk

/-- A part of the value for the alarm register, with the bit that skips its comparison. -/
def alarmField (val : Int) (bits : Nat) (msk skip : BitVec 32) : BitVec 32 :=
  if 0 ≤ val then putBcd val bits msk else skip

/-- The value that `stm32f2_setup_alarm` prepares for the alarm register. -/
def alarmValue (mday wday hour min sec : Int) : BitVec 32 :=
  alarmDay mday wday ||| alarmField hour 16 alrmHourMsk alrmHourmask |||
    alarmField min 8 alrmMinMsk alrmMinmask ||| alarmField sec 0 alrmSecMsk alrmSecmask

/-- `stm32f2_setup_alarm`, `drivers/rtc/rtc-stm32f2.c:427`. -/
def setupAlarm (s : Stm32f2Rtc) (alarm : Nat) (mday wday hour min sec : Int) : Option Stm32f2Rtc :=
  let enableMsk := if alarm ≠ 0 then crAlrbe else crAlrae
  let writeFlagMsk := if alarm ≠ 0 then isrAlrbwf else isrAlrawf
  let s := s.writeEnable true
  let s := s.writeCr (s.cr &&& ~~~enableMsk)
  (s.poll writeFlagMsk).map fun s =>
    let tmp := alarmValue mday wday hour min sec
    let s := if alarm ≠ 0 then s.writeAlrmbr tmp else s.writeAlrmar tmp
    let s := s.writeCr (s.cr ||| enableMsk)
    s.writeEnable false

/-- `stm32f2_rtc_update_irq_enable`, `drivers/rtc/rtc-stm32f2.c:506`. -/
def updateIrqEnable (s : Stm32f2Rtc) (enabled : Bool) : Option Stm32f2Rtc :=
  if enabled then
    (s.setupAlarm 1 (-1) (-1) (-1) (-1) (-1)).map fun s => s.alarmIrqEnable 1 true
  else
    let s := s.alarmIrqEnable 1 false
    let s := s.writeEnable true
    let s := s.writeCr (s.cr &&& ~~~crAlrbe)
    let s := s.writeEnable false
    -- `STM32F2_EXTI_LINE_RTC_ALARM`
    some (s.extiClearPending 17)

/-- `stm32f2_rtc_read_time`, `drivers/rtc/rtc-stm32f2.c:536`, with `n i` seconds before read `i`. -/
def readTime (s : Stm32f2Rtc) (n : Nat → Nat) : RtcTime × Stm32f2Rtc :=
  let r0 := (s.wait (n 0)).readTr
  let r1 := (r0.2.wait (n 1)).readTr
  let r2 := (r1.2.wait (n 2)).readTr
  let r3 := (r2.2.wait (n 3)).readDr
  let r4 := (r3.2.wait (n 4)).readDr
  let r5 := (r4.2.wait (n 5)).readDr
  let r6 := (r5.2.wait (n 6)).readDr
  ({ tmSec := getBcd r0.1 0 trSecMsk
     tmMin := getBcd r1.1 8 trMinMsk
     tmHour := getBcd r2.1 16 trHourMsk
     tmMday := getBcd r3.1 0 drMdayMsk
     tmMon := getBcd r4.1 8 drMonMsk - 1
     tmYear := getBcd r5.1 16 drYearMsk + 100
     tmWday := getWday r6.1 13 drWdayMsk }, r6.2)

/-- The write of `stm32f2_rtc_set_time` to TR. -/
def setTimeTr (s : Stm32f2Rtc) (tm : RtcTime) : Stm32f2Rtc :=
  let r := s.readTr
  r.2.writeTr ((r.1 &&& ~~~(trSecMsk ||| trMinMsk ||| trHourMsk)) |||
    putBcd tm.tmSec 0 trSecMsk ||| putBcd tm.tmMin 8 trMinMsk ||| putBcd tm.tmHour 16 trHourMsk)

/-- The write of `stm32f2_rtc_set_time` to DR. -/
def setTimeDr (s : Stm32f2Rtc) (tm : RtcTime) : Stm32f2Rtc :=
  let r := s.readDr
  r.2.writeDr ((r.1 &&& ~~~(drMdayMsk ||| drMonMsk ||| drYearMsk ||| drWdayMsk)) |||
    putBcd tm.tmMday 0 drMdayMsk ||| putBcd (tm.tmMon + 1) 8 drMonMsk |||
    putBcd (tm.tmYear.tmod 100) 16 drYearMsk ||| putWday tm.tmWday 13 drWdayMsk)

/-- `stm32f2_rtc_set_time`, `drivers/rtc/rtc-stm32f2.c:569`. -/
def setTime (s : Stm32f2Rtc) (tm : RtcTime) : Option Stm32f2Rtc :=
  ((s.writeEnable true).enableInitMode true).bind fun s =>
    (((s.setTimeTr tm).setTimeDr tm).enableInitMode false).map fun s => s.writeEnable false

/-- `stm32f2_rtc_read_alarm`, `drivers/rtc/rtc-stm32f2.c:614`. -/
def readAlarm (s : Stm32f2Rtc) : RtcWkalrm :=
  let reg := s.alrmar
  let day : Int × Int :=
    if reg &&& alrmDatemask ≠ 0#32 then (-1, -1)
    else if reg &&& alrmWdsel ≠ 0#32 then (-1, getWday reg 24 alrmWdayMsk)
    else (getBcd reg 24 alrmMdayMsk, -1)
  { enabled := decide (s.cr &&& crAlrae ≠ 0#32)
    pending := decide (s.isr &&& isrAlraf ≠ 0#32)
    time :=
      { tmYear := -1
        tmMon := -1
        tmMday := day.1
        tmWday := day.2
        tmHour := if reg &&& alrmHourmask ≠ 0#32 then -1 else getBcd reg 16 alrmHourMsk
        tmMin := if reg &&& alrmMinmask ≠ 0#32 then -1 else getBcd reg 8 alrmMinMsk
        tmSec := if reg &&& alrmSecmask ≠ 0#32 then -1 else getBcd reg 0 alrmSecMsk } }

/-- `stm32f2_rtc_set_alarm`, `drivers/rtc/rtc-stm32f2.c:678`: 0 or `-EINVAL`. -/
def setAlarm (s : Stm32f2Rtc) (alrm : RtcWkalrm) : Option (Int × Stm32f2Rtc) :=
  let tm := alrm.time
  if rtcValidTm tm then
    (s.setupAlarm 0 tm.tmMday tm.tmWday tm.tmHour tm.tmMin tm.tmSec).map fun s =>
      (0, if alrm.enabled then s.alarmIrqEnable 0 true else s)
  else some (-22, s)

end Stm32f2Rtc

/-! ### Fields of the registers -/

/-- A field reads the same from values that agree on its mask. -/
theorem getBcd_congr {x y msk : BitVec 32} {bits : Nat} (h : x &&& msk = y &&& msk) :
    getBcd x bits msk = getBcd y bits msk := by
  rw [getBcd, getBcd, h]

/-- Numbers below `n` that are put into a field read back. -/
def TwoDigits (bits : Nat) (msk : BitVec 32) (n : Nat) : Prop :=
  ∀ v : Fin n, getBcd (putBcd (v : Nat) bits msk) bits msk = (v : Nat)

instance (bits : Nat) (msk : BitVec 32) (n : Nat) : Decidable (TwoDigits bits msk n) :=
  inferInstanceAs (Decidable (∀ v : Fin n,
    getBcd (putBcd (v : Nat) bits msk) bits msk = (v : Nat)))

theorem TwoDigits.get {bits n : Nat} {msk : BitVec 32} (h : TwoDigits bits msk n) {v : Int}
    (h0 : 0 ≤ v) (hn : v < n) : getBcd (putBcd v bits msk) bits msk = v := by
  have hv := h ⟨v.toNat, by omega⟩
  rwa [show ((v.toNat : Nat) : Int) = v by omega] at hv

/-- What `rtc_valid_tm` checks. -/
theorem rtcValidTm_bounds {tm : RtcTime} (h : rtcValidTm tm = true) :
    (0 ≤ tm.tmMon ∧ tm.tmMon < 12) ∧ (1 ≤ tm.tmMday ∧ tm.tmMday < 32) ∧
      (0 ≤ tm.tmHour ∧ tm.tmHour < 24) ∧ (0 ≤ tm.tmMin ∧ tm.tmMin < 60) ∧
      (0 ≤ tm.tmSec ∧ tm.tmSec < 60) := by
  simp only [rtcValidTm, Bool.not_eq_true', Bool.or_eq_false_iff, decide_eq_false_iff_not,
    Bool.not_eq_false', decide_eq_true_eq] at h
  have hdays : ∀ m < 12, ∀ leap : Bool,
      ([31, 28, 31, 30, 31, 30, 31, 31, 30, 31, 30, 31].getD m 0 : Int) +
        (if leap && m == 1 then 1 else 0) ≤ 31 := by
    decide
  have hle : rtcMonthDays tm.tmMon.toNat (tm.tmYear + 1900) ≤ 31 :=
    hdays _ (by omega) (isLeapYear (tm.tmYear + 1900))
  omega

end LinuxStm32.Drivers.Rtc
