import LinuxStm32.Drivers.Rtc.RtcStm32f2

/-!
# The alarms of the real-time clock

What the calls that deal with the event sources do to ISR and CR, and what an alarm reads back as.
A read-modify-write of ISR is one step: no event flag is raised between its read and its write.
-/

namespace LinuxStm32.Drivers.Rtc

open Base

/-! ### Register writes -/

namespace Stm32f2Rtc

variable {s : Stm32f2Rtc} {v : BitVec 32}

theorem and_bit_ne_zero {x : BitVec 32} {i : Nat} (hi : i < 32) (h : x.getLsbD i = true) :
    x &&& (1#32 <<< i) ≠ 0#32 := by
  intro h0
  have hbit := congrArg (·.getLsbD i) h0
  simp only [BitVec.getLsbD_and, h, one_shiftLeft_bit hi, decide_true, Bool.and_self] at hbit
  exact absurd hbit (by simp)

/-- The event flags and INIT, the bits a masked write to ISR can clear. -/
def isrSources : BitVec 32 := isrEvents ||| isrInit

/-- A write of the masked ISR clears what is masked. -/
theorem writeIsr_masked (h : s.unlocked = true) :
    (s.writeIsr (s.isr &&& v)).isr &&& isrSources = s.isr &&& isrSources &&& v := by
  rw [writeIsr, if_pos h]
  dsimp only
  rw [BitVec.ushiftRight_and_distrib, BitVec.and_or_distrib_right, BitVec.and_or_distrib_right,
    BitVec.and_or_distrib_right]
  simp only [BitVec.and_assoc]
  rw [show isrClearable &&& isrSources = isrEvents by decide,
    show isrInit &&& isrSources = isrInit by decide,
    show isrInit >>> 1 &&& isrSources = 0#32 by decide,
    show ~~~(isrClearable ||| isrInit ||| isrInitf) &&& isrSources = 0#32 by decide]
  simp only [BitVec.and_zero, BitVec.or_zero]
  rw [← BitVec.and_assoc s.isr s.isr, BitVec.and_self, ← BitVec.and_or_distrib_left,
    ← BitVec.and_or_distrib_left, BitVec.and_comm v]
  rfl

/-- A write to CR changes the write flags in ISR only. -/
theorem writeCr_isr {msk : BitVec 32} (hm : 7#32 &&& msk = 0#32) :
    (s.writeCr v).isr &&& msk = s.isr &&& msk := by
  rw [writeCr]
  split
  next =>
    have hnot : ~~~7#32 &&& msk = msk := by
      apply BitVec.eq_of_getLsbD_eq
      intro i hi
      have hbit := congrArg (·.getLsbD i) hm
      simp only [BitVec.getLsbD_and, BitVec.getLsbD_not, hi, decide_true, Bool.true_and] at hbit ⊢
      cases hb : msk.getLsbD i with
      | false => rw [Bool.and_false]
      | true =>
        rw [hb, Bool.and_true] at hbit
        rw [hbit]
        simp
    dsimp only
    rw [BitVec.and_or_distrib_right, BitVec.and_assoc, BitVec.and_assoc, hm, hnot, BitVec.and_zero,
      BitVec.or_zero]
  next => rfl

theorem writeCr_unlocked : (s.writeCr v).unlocked = s.unlocked := by
  rw [writeCr]
  split
  next => rfl
  next => rfl

theorem writeCr_alrmar : (s.writeCr v).alrmar = s.alrmar := by
  rw [writeCr]
  split
  next => rfl
  next => rfl

theorem writeCr_cr (h : s.unlocked = true) : (s.writeCr v).cr = v := by
  rw [writeCr, if_pos h]

/-! ### The calls -/

theorem clear_or (x m : BitVec 32) : x &&& ~~~m ||| m = x ||| m := by
  apply BitVec.eq_of_getLsbD_eq
  intro i hi
  simp only [BitVec.getLsbD_or, BitVec.getLsbD_and, BitVec.getLsbD_not, hi, decide_true,
    Bool.true_and]
  cases x.getLsbD i <;> cases m.getLsbD i <;> rfl

/-- A change of CR and a write of the masked ISR, which is what enabling and disabling an interrupt
amounts to. -/
def changeIrq (s : Stm32f2Rtc) (cr isrMsk : BitVec 32) : Stm32f2Rtc :=
  let s := (s.writeEnable true).writeCr cr
  (s.writeIsr (s.isr &&& isrMsk)).writeEnable false

theorem changeIrq_cr (cr isrMsk : BitVec 32) : (s.changeIrq cr isrMsk).cr = cr := by
  simp only [changeIrq, writeEnable, writeCr, writeIsr, if_true]

theorem changeIrq_alrmar (cr isrMsk : BitVec 32) : (s.changeIrq cr isrMsk).alrmar = s.alrmar := by
  simp only [changeIrq, writeEnable, writeCr, writeIsr, if_true]

theorem changeIrq_isr (cr isrMsk : BitVec 32) :
    (s.changeIrq cr isrMsk).isr &&& isrSources = s.isr &&& isrSources &&& isrMsk := by
  have hunlocked : ((s.writeEnable true).writeCr cr).unlocked = true := by
    simp only [writeEnable, writeCr, if_true]
  have hisr : ((s.writeEnable true).writeCr cr).isr &&& isrSources = s.isr &&& isrSources :=
    writeCr_isr (by decide)
  rw [← hisr]
  exact writeIsr_masked hunlocked

theorem irqSetState_eq (s : Stm32f2Rtc) (enabled : Bool) :
    s.irqSetState enabled = s.changeIrq (if enabled then s.cr ||| (crWute ||| crWutie)
      else s.cr &&& ~~~(crWute ||| crWutie)) (~~~isrWutf) := by
  cases enabled <;> rfl

theorem alarmIrqEnable_zero (s : Stm32f2Rtc) (enable : Bool) :
    s.alarmIrqEnable 0 enable = s.changeIrq (if enable then s.cr ||| crAlraie
      else s.cr &&& ~~~crAlraie) isrAlraf := by
  cases enable <;> rfl

theorem alarmIrqEnable_one (s : Stm32f2Rtc) (enable : Bool) :
    s.alarmIrqEnable 1 enable = s.changeIrq (if enable then s.cr ||| crAlrbie
      else s.cr &&& ~~~crAlrbie) (~~~isrAlrbf) := by
  cases enable <;> rfl

/-- Once an alarm is disabled its register can be written. -/
theorem writeFlag_of_disabled {i : Nat} (hi : i < 3) (h : s.unlocked = true) :
    (s.writeCr (v &&& ~~~(1#32 <<< (8 + i)))).isr &&& (1#32 <<< i) ≠ 0#32 := by
  apply and_bit_ne_zero (by omega)
  have hbit : (1#32 <<< (8 + i)).getLsbD (8 + i) = true := by
    rw [one_shiftLeft_bit (by omega), decide_eq_true rfl]
  have hseven : (7#32).getLsbD i = true := by
    rcases i with _ | _ | _ | i
    · rfl
    · rfl
    · rfl
    · omega
  rw [writeCr, if_pos h]
  have hlt : 8 + i < 32 := by omega
  simp only [BitVec.getLsbD_or, BitVec.getLsbD_and, BitVec.getLsbD_ushiftRight, BitVec.getLsbD_not,
    hseven, hbit, hlt, decide_true, Bool.not_true, Bool.and_false, Bool.and_true, Bool.not_false,
    Bool.or_true]

/-- Disable an alarm, wait for its write flag, write its register and enable it. -/
theorem setup_spec {i : Nat} (hi : i < 3) {t : Stm32f2Rtc} (write : Stm32f2Rtc → Stm32f2Rtc)
    (ht : t = (s.writeEnable true).writeCr (s.cr &&& ~~~(1#32 <<< (8 + i))))
    (hcr : (write t).cr = t.cr) (hisr : (write t).isr = t.isr)
    (hunlocked : (write t).unlocked = t.unlocked) :
    t.poll (1#32 <<< i) = some t ∧
      ((write t).writeCr ((write t).cr ||| 1#32 <<< (8 + i))).cr = s.cr ||| 1#32 <<< (8 + i) ∧
      ((write t).writeCr ((write t).cr ||| 1#32 <<< (8 + i))).isr &&& isrSources =
        s.isr &&& isrSources := by
  have htcr : t.cr = s.cr &&& ~~~(1#32 <<< (8 + i)) := by
    rw [ht]
    exact writeCr_cr rfl
  have htu : t.unlocked = true := by
    rw [ht, writeCr_unlocked]
    rfl
  refine ⟨?_, ?_, ?_⟩
  · rw [poll, if_neg]
    rw [ht]
    exact writeFlag_of_disabled hi rfl
  · rw [writeCr_cr (by rw [hunlocked, htu]), hcr, htcr, clear_or]
  · rw [writeCr_isr (by decide), hisr, ht]
    exact writeCr_isr (by decide)

/-- What setting up Alarm A does. -/
theorem setupAlarm_zero (s : Stm32f2Rtc) (mday wday hour min sec : Int) :
    ∃ s', s.setupAlarm 0 mday wday hour min sec = some s' ∧ s'.cr = s.cr ||| crAlrae ∧
      s'.alrmar = alarmValue mday wday hour min sec ∧
      s'.isr &&& isrSources = s.isr &&& isrSources := by
  have hflag : ((s.writeEnable true).writeCr (s.cr &&& ~~~crAlrae)).isr &&& isrAlrawf ≠ 0#32 :=
    @writeFlag_of_disabled (s.writeEnable true) s.cr 0 (by decide) rfl
  generalize ht : (s.writeEnable true).writeCr (s.cr &&& ~~~crAlrae) = t at hflag
  have hunlocked : t.unlocked = true := by
    rw [← ht, writeCr_unlocked]
    rfl
  have hwrite : t.writeAlrmar (alarmValue mday wday hour min sec) =
      { t with alrmar := alarmValue mday wday hour min sec } := by
    rw [writeAlrmar, if_pos ⟨hunlocked, hflag⟩]
  obtain ⟨hpoll, hcr, hisr⟩ := @setup_spec s 0 (by decide) t
    (fun t => { t with alrmar := alarmValue mday wday hour min sec }) ht.symm rfl rfl rfl
  refine ⟨(writeCr { t with alrmar := alarmValue mday wday hour min sec }
    (t.cr ||| crAlrae)).writeEnable false, ?_, hcr, writeCr_alrmar, hisr⟩
  change (((s.writeEnable true).writeCr (s.cr &&& ~~~crAlrae)).poll isrAlrawf).map (fun t =>
    ((t.writeAlrmar (alarmValue mday wday hour min sec)).writeCr
      ((t.writeAlrmar (alarmValue mday wday hour min sec)).cr ||| crAlrae)).writeEnable false) = _
  rw [ht, show t.poll isrAlrawf = some t from hpoll, Option.map_some, hwrite]

theorem writeAlrmbr_fields : (s.writeAlrmbr v).cr = s.cr ∧ (s.writeAlrmbr v).isr = s.isr ∧
    (s.writeAlrmbr v).unlocked = s.unlocked := by
  rw [writeAlrmbr]
  split
  next => exact ⟨rfl, rfl, rfl⟩
  next => exact ⟨rfl, rfl, rfl⟩

/-- What setting up Alarm B does. -/
theorem setupAlarm_one (s : Stm32f2Rtc) (mday wday hour min sec : Int) :
    ∃ s', s.setupAlarm 1 mday wday hour min sec = some s' ∧ s'.cr = s.cr ||| crAlrbe ∧
      s'.isr &&& isrSources = s.isr &&& isrSources := by
  generalize ht : (s.writeEnable true).writeCr (s.cr &&& ~~~crAlrbe) = t
  obtain ⟨hcr, hisr, hunlocked⟩ := @writeAlrmbr_fields t (alarmValue mday wday hour min sec)
  obtain ⟨hpoll, hcr', hisr'⟩ := @setup_spec s 1 (by decide) t
    (·.writeAlrmbr (alarmValue mday wday hour min sec)) ht.symm hcr hisr hunlocked
  refine ⟨((t.writeAlrmbr (alarmValue mday wday hour min sec)).writeCr
    ((t.writeAlrmbr (alarmValue mday wday hour min sec)).cr ||| crAlrbe)).writeEnable false, ?_,
    hcr', hisr'⟩
  change (((s.writeEnable true).writeCr (s.cr &&& ~~~crAlrbe)).poll isrAlrbwf).map (fun t =>
    ((t.writeAlrmbr (alarmValue mday wday hour min sec)).writeCr
      ((t.writeAlrmbr (alarmValue mday wday hour min sec)).cr ||| crAlrbe)).writeEnable false) = _
  rw [ht, show t.poll isrAlrbwf = some t from hpoll, Option.map_some]

end Stm32f2Rtc

/-! ### Independent sources -/

/-- The event sources the driver uses. -/
inductive Source
  | alarmA
  | alarmB
  | wakeup
  deriving DecidableEq, Repr

/-- The pending flag of a source. -/
def Source.flag : Source → BitVec 32
  | .alarmA => isrAlraf
  | .alarmB => isrAlrbf
  | .wakeup => isrWutf

/-- The enable bits of a source. -/
def Source.enables : Source → BitVec 32
  | .alarmA => crAlrae ||| crAlraie
  | .alarmB => crAlrbe ||| crAlrbie
  | .wakeup => crWute ||| crWutie

/-- The calls that deal with an event source. -/
inductive RtcCall
  | alarmIrqEnable (enabled : Bool)
  | updateIrqEnable (enabled : Bool)
  | irqSetState (enabled : Bool)
  | setAlarm (alrm : RtcWkalrm)
  deriving DecidableEq, Repr

namespace RtcCall

/-- The source a call deals with: update interrupts are those of Alarm B, periodic ones those of
the wake-up timer. -/
def source : RtcCall → Source
  | alarmIrqEnable _ => .alarmA
  | updateIrqEnable _ => .alarmB
  | irqSetState _ => .wakeup
  | setAlarm _ => .alarmA

/-- The call enables or disables the interrupt of its source. -/
def switches : RtcCall → Bool
  | setAlarm alrm => rtcValidTm alrm.time && alrm.enabled
  | _ => true

/-- The state after a call. -/
def run (s : Stm32f2Rtc) : RtcCall → Option Stm32f2Rtc
  | alarmIrqEnable enabled => some (s.rtcAlarmIrqEnable enabled)
  | updateIrqEnable enabled => s.updateIrqEnable enabled
  | irqSetState enabled => some (s.irqSetState enabled)
  | setAlarm alrm => (s.setAlarm alrm).map Prod.snd

end RtcCall

/-- A call returns, clears no event flag but that of its source, clears this one if it switches the
interrupt, changes no bit of CR but the enable bits of its source, and does not enter initialisation
mode. -/
def Independent (s : Stm32f2Rtc) (call : RtcCall) : Prop :=
  ∃ s', call.run s = some s' ∧
    s'.isr &&& isrEvents &&& ~~~call.source.flag = s.isr &&& isrEvents &&& ~~~call.source.flag ∧
    (call.switches = true → s'.isr &&& call.source.flag = 0#32) ∧
    s'.cr &&& ~~~call.source.enables = s.cr &&& ~~~call.source.enables ∧
    (s'.isr &&& isrInit ≠ 0#32 → s.isr &&& isrInit ≠ 0#32)

/-- A call that switches the interrupt of Alarm A is made while no event is pending. -/
def EventsIdle (s : Stm32f2Rtc) (call : RtcCall) : Prop :=
  call.source = .alarmA → call.switches = true → s.isr &&& isrEvents = 0#32

/-- A call, or events that set flags. -/
inductive RtcStep
  | call (call : RtcCall)
  | events (flags : BitVec 32)
  deriving DecidableEq, Repr

/-- The calls of a run, each with the state it is made in. -/
def calls (s : Stm32f2Rtc) : List RtcStep → List (Stm32f2Rtc × RtcCall)
  | [] => []
  | .events flags :: steps => calls { s with isr := s.isr ||| (flags &&& isrClearable) } steps
  | .call call :: steps =>
    (s, call) :: match call.run s with
      | some s' => calls s' steps
      | none => []

namespace Stm32f2Rtc

variable {s : Stm32f2Rtc}

theorem eq_zero_of_and {x m : BitVec 32} (h : x &&& m = 0#32) (h' : x &&& ~~~m = 0#32) :
    x = 0#32 := by
  have hsplit : x = x &&& m ||| x &&& ~~~m := by
    rw [← BitVec.and_or_distrib_left, BitVec.or_not_self, BitVec.and_allOnes]
  rw [hsplit, h, h', BitVec.or_zero]

theorem and_and_not (x m : BitVec 32) : x &&& m &&& ~~~m = 0#32 := by
  rw [BitVec.and_assoc, BitVec.and_not_self]
  exact BitVec.and_zero

/-- A call that changes only the enable bits of its source. -/
theorem changed_enables {x m e : BitVec 32} (b : Bool) (h : m &&& ~~~e = 0#32) :
    (if b then x ||| m else x &&& ~~~m) &&& ~~~e = x &&& ~~~e := by
  have hbit : ∀ i, (m.getLsbD i && (~~~e).getLsbD i) = false := by
    intro i
    have hi := congrArg (·.getLsbD i) h
    simpa only [BitVec.getLsbD_and, BitVec.getLsbD_zero] using hi
  apply BitVec.eq_of_getLsbD_eq
  intro i hi
  have hm := hbit i
  cases b with
  | false =>
    simp only [Bool.false_eq_true, if_false, BitVec.getLsbD_and, BitVec.getLsbD_not, hi,
      decide_true, Bool.true_and] at hm ⊢
    cases hmi : m.getLsbD i with
    | false => rw [Bool.not_false, Bool.and_true]
    | true =>
      rw [hmi, Bool.true_and] at hm
      rw [hm, Bool.and_false, Bool.and_false]
  | true =>
    simp only [if_true, BitVec.getLsbD_and, BitVec.getLsbD_or, BitVec.getLsbD_not, hi,
      decide_true, Bool.true_and] at hm ⊢
    rw [Bool.and_or_distrib_right, hm, Bool.or_false]

end Stm32f2Rtc

/-- The event flags that the write of a call to ISR keeps. -/
def RtcCall.keeps : RtcCall → BitVec 32
  | alarmIrqEnable _ => isrAlraf
  | updateIrqEnable _ => ~~~isrAlrbf
  | irqSetState _ => ~~~isrWutf
  | setAlarm alrm => if rtcValidTm alrm.time && alrm.enabled then isrAlraf else BitVec.allOnes 32

open Stm32f2Rtc in
/-- What the calls do to ISR and CR. -/
theorem RtcCall.run_spec (s : Stm32f2Rtc) (call : RtcCall) :
    ∃ s', call.run s = some s' ∧
      s'.isr &&& isrSources = s.isr &&& isrSources &&& call.keeps ∧
      s'.cr &&& ~~~call.source.enables = s.cr &&& ~~~call.source.enables := by
  cases call with
  | alarmIrqEnable enabled =>
    refine ⟨_, rfl, ?_, ?_⟩
    · rw [rtcAlarmIrqEnable, alarmIrqEnable_zero, changeIrq_isr]
      rfl
    · rw [rtcAlarmIrqEnable, alarmIrqEnable_zero, changeIrq_cr]
      exact @changed_enables s.cr crAlraie Source.alarmA.enables enabled (by decide)
  | updateIrqEnable enabled =>
    cases enabled with
    | false =>
      refine ⟨_, rfl, ?_, ?_⟩
      · change (writeCr _ _).isr &&& isrSources = _
        rw [writeCr_isr (by decide), alarmIrqEnable_one]
        exact changeIrq_isr _ _
      · change (writeCr _ _).cr &&& _ = _
        rw [writeCr_cr rfl, alarmIrqEnable_one]
        change (s.changeIrq (s.cr &&& ~~~crAlrbie) (~~~isrAlrbf)).cr &&& ~~~crAlrbe &&&
          ~~~Source.alarmB.enables = _
        rw [changeIrq_cr]
        exact (@changed_enables (s.cr &&& ~~~crAlrbie) crAlrbe _ false (by decide)).trans
          (@changed_enables s.cr crAlrbie _ false (by decide))
    | true =>
      obtain ⟨t, ht, hcr, hisr⟩ := s.setupAlarm_one (-1) (-1) (-1) (-1) (-1)
      refine ⟨t.alarmIrqEnable 1 true, ?_, ?_, ?_⟩
      · change (s.setupAlarm 1 (-1) (-1) (-1) (-1) (-1)).map _ = _
        rw [ht, Option.map_some]
      · rw [alarmIrqEnable_one, changeIrq_isr, hisr]
        rfl
      · rw [alarmIrqEnable_one, changeIrq_cr, hcr]
        exact (@changed_enables (s.cr ||| crAlrbe) crAlrbie _ true (by decide)).trans
          (@changed_enables s.cr crAlrbe _ true (by decide))
  | irqSetState enabled =>
    refine ⟨_, rfl, ?_, ?_⟩
    · rw [irqSetState_eq, changeIrq_isr]
      rfl
    · rw [irqSetState_eq, changeIrq_cr]
      exact @changed_enables s.cr (crWute ||| crWutie) Source.wakeup.enables enabled (by decide)
  | setAlarm alrm =>
    rw [RtcCall.run, Stm32f2Rtc.setAlarm, keeps]
    cases hvalid : rtcValidTm alrm.time with
    | false =>
      rw [if_neg Bool.false_ne_true, Bool.false_and, if_neg Bool.false_ne_true]
      exact ⟨s, rfl, (BitVec.and_allOnes).symm, rfl⟩
    | true =>
      obtain ⟨t, ht, hcr, -, hisr⟩ := s.setupAlarm_zero alrm.time.tmMday
        alrm.time.tmWday alrm.time.tmHour alrm.time.tmMin alrm.time.tmSec
      rw [if_pos rfl, ht, Option.map_some, Option.map_some, Bool.true_and]
      have hsetup := @changed_enables s.cr crAlrae (crAlrae ||| crAlraie) true (by decide)
      cases alrm.enabled with
      | false =>
        rw [if_neg Bool.false_ne_true, if_neg Bool.false_ne_true, BitVec.and_allOnes]
        refine ⟨t, rfl, hisr, ?_⟩
        rw [hcr]
        exact hsetup
      | true =>
        rw [if_pos rfl, if_pos rfl]
        refine ⟨_, rfl, ?_, ?_⟩
        · rw [alarmIrqEnable_zero, changeIrq_isr, hisr]
        · rw [alarmIrqEnable_zero, changeIrq_cr, hcr]
          exact (@changed_enables (s.cr ||| crAlrae) crAlraie Source.alarmA.enables true
            (by decide)).trans hsetup

theorem Stm32f2Rtc.masked_of_sources {x y k m : BitVec 32} (hm : isrSources &&& m = m)
    (h : x &&& isrSources = y &&& isrSources &&& k) : x &&& m = y &&& m &&& k := by
  have hand := congrArg (· &&& m) h
  rwa [BitVec.and_assoc, hm, BitVec.and_assoc _ k, BitVec.and_comm k, ← BitVec.and_assoc,
    BitVec.and_assoc y, hm] at hand

/-- A source's flag is one of the event flags. -/
theorem Source.events_and_flag (x : BitVec 32) (src : Source) :
    x &&& src.flag = x &&& isrEvents &&& src.flag := by
  rw [BitVec.and_assoc]
  cases src <;> rfl

/-- The switching calls of Alarm A keep its flag and clear the others; all others clear at most the
flag of their source. -/
theorem RtcCall.keeps_cases (call : RtcCall) :
    (call.source = .alarmA ∧ call.switches = true ∧ call.keeps = isrAlraf) ∨
      (call.source ≠ .alarmA ∧ call.keeps = ~~~call.source.flag) ∨
      (call.switches = false ∧ call.keeps = BitVec.allOnes 32) := by
  cases call with
  | alarmIrqEnable enabled => exact .inl ⟨rfl, rfl, rfl⟩
  | updateIrqEnable enabled => exact .inr (.inl ⟨nofun, rfl⟩)
  | irqSetState enabled => exact .inr (.inl ⟨nofun, rfl⟩)
  | setAlarm alrm =>
    cases h : rtcValidTm alrm.time && alrm.enabled with
    | false => exact .inr (.inr ⟨h, by rw [keeps, h, if_neg Bool.false_ne_true]⟩)
    | true => exact .inl ⟨rfl, h, by rw [keeps, h, if_pos rfl]⟩

/-- A call is independent of the other sources exactly if it does not switch the interrupt of Alarm
A while an event is pending. -/
theorem independent_iff (s : Stm32f2Rtc) (call : RtcCall) :
    Independent s call ↔ EventsIdle s call := by
  obtain ⟨s', hrun, hisr, hcr⟩ := call.run_spec s
  have hevents := Stm32f2Rtc.masked_of_sources (m := isrEvents) (by decide) hisr
  have hinit := Stm32f2Rtc.masked_of_sources (m := isrInit) (by decide) hisr
  have hflag : s'.isr &&& call.source.flag = s.isr &&& isrEvents &&& call.keeps &&&
      call.source.flag := by
    rw [Source.events_and_flag, hevents]
  constructor
  · rintro ⟨t, ht, hkept, hown, -, -⟩ hsource hswitch
    rw [hrun] at ht
    cases ht
    rcases call.keeps_cases with ⟨-, -, hkeeps⟩ | ⟨hne, -⟩ | ⟨hsw, -⟩
    · have hzero := hown hswitch
      rw [hevents, hkeeps, hsource, Source.flag, Stm32f2Rtc.and_and_not] at hkept
      rw [hflag, hkeeps, hsource, Source.flag, BitVec.and_assoc, BitVec.and_self] at hzero
      exact Stm32f2Rtc.eq_zero_of_and hzero hkept.symm
    · exact absurd hsource hne
    · rw [hswitch] at hsw
      cases hsw
  · intro hidle
    have hnot : s'.isr &&& isrInit ≠ 0#32 → s.isr &&& isrInit ≠ 0#32 := by
      intro hset h0
      rw [hinit, h0, BitVec.zero_and] at hset
      exact hset rfl
    rcases call.keeps_cases with ⟨hsource, hswitch, -⟩ | ⟨-, hkeeps⟩ | ⟨hsw, hkeeps⟩
    · have h0 := hidle hsource hswitch
      refine ⟨s', hrun, ?_, fun _ => ?_, hcr, hnot⟩
      · rw [hevents, h0, BitVec.zero_and]
      · rw [hflag, h0, BitVec.zero_and, BitVec.zero_and]
    · refine ⟨s', hrun, ?_, fun _ => ?_, hcr, hnot⟩
      · rw [hevents, hkeeps, BitVec.and_assoc, BitVec.and_self]
      · rw [hflag, hkeeps, BitVec.and_assoc, BitVec.and_comm (~~~call.source.flag),
          BitVec.and_not_self]
        exact BitVec.and_zero
    · refine ⟨s', hrun, ?_, fun h => ?_, hcr, hnot⟩
      · rw [hevents, hkeeps, BitVec.and_allOnes]
      · rw [hsw] at h
        cases h

/-- In every run, of any calls and events from any state, all calls are independent exactly if none
switches the interrupt of Alarm A while an event is pending. -/
theorem rtc_flags_independent (s : Stm32f2Rtc) (steps : List RtcStep) :
    (∀ p ∈ calls s steps, Independent p.1 p.2) ↔ ∀ p ∈ calls s steps, EventsIdle p.1 p.2 := by
  constructor
  · intro h p hp
    exact (independent_iff p.1 p.2).mp (h p hp)
  · intro h p hp
    exact (independent_iff p.1 p.2).mpr (h p hp)

/-- A clock that runs, with all three events pending. -/
def Stm32f2Rtc.pendingAll : Stm32f2Rtc where
  cal := ⟨0, 0, 0, 1, 1, 0, 6⟩
  frozen := none
  cr := 0#32
  isr := isrAlraf ||| isrAlrbf ||| isrWutf
  alrmar := 0#32
  alrmbr := 0#32
  unlocked := false
  extiPr := 0#32

/-- Disabling Alarm A keeps its own event pending and loses the others. -/
theorem rtc_alarm_flags_lost :
    (Stm32f2Rtc.pendingAll.rtcAlarmIrqEnable false).isr &&& isrEvents = isrAlraf ∧
      ¬ Independent .pendingAll (.alarmIrqEnable false) := by
  refine ⟨by decide, fun h => ?_⟩
  have hidle := (independent_iff _ _).mp h rfl rfl
  exact absurd hidle (by decide)

/-! ### Reading an alarm back -/

/-- The value for the register of an alarm on a day of the month. -/
theorem alarmValue_eq {mday wday hour min sec : Int} (hmday : 0 < mday) (hhour : 0 ≤ hour)
    (hmin : 0 ≤ min) (hsec : 0 ≤ sec) :
    Stm32f2Rtc.alarmValue mday wday hour min sec =
      putBcd mday 24 alrmMdayMsk ||| putBcd hour 16 alrmHourMsk ||| putBcd min 8 alrmMinMsk |||
        putBcd sec 0 alrmSecMsk := by
  rw [Stm32f2Rtc.alarmValue, Stm32f2Rtc.alarmDay, if_neg (by omega), if_pos hmday,
    Stm32f2Rtc.alarmField, if_pos hhour, Stm32f2Rtc.alarmField, if_pos hmin,
    Stm32f2Rtc.alarmField, if_pos hsec]

section AlarmRegister

variable (mday hour min sec : Int)

/-- The fields of the register of an alarm are where they were put. -/
theorem alarm_fields {reg : BitVec 32} (h : reg = putBcd mday 24 alrmMdayMsk |||
      putBcd hour 16 alrmHourMsk ||| putBcd min 8 alrmMinMsk ||| putBcd sec 0 alrmSecMsk) :
    reg &&& alrmMdayMsk = putBcd mday 24 alrmMdayMsk &&& alrmMdayMsk ∧
      reg &&& alrmHourMsk = putBcd hour 16 alrmHourMsk &&& alrmHourMsk ∧
      reg &&& alrmMinMsk = putBcd min 8 alrmMinMsk &&& alrmMinMsk ∧
      reg &&& alrmSecMsk = putBcd sec 0 alrmSecMsk &&& alrmSecMsk := by
  rw [h]
  simp [putBcd, BitVec.and_assoc, BitVec.and_or_distrib_right, alrmMdayMsk, alrmHourMsk, alrmMinMsk,
    alrmSecMsk]

/-- No comparison is skipped, and the date is a day of the month. -/
theorem alarm_skips {reg : BitVec 32} (h : reg = putBcd mday 24 alrmMdayMsk |||
      putBcd hour 16 alrmHourMsk ||| putBcd min 8 alrmMinMsk ||| putBcd sec 0 alrmSecMsk) :
    reg &&& alrmDatemask = 0#32 ∧ reg &&& alrmWdsel = 0#32 ∧ reg &&& alrmHourmask = 0#32 ∧
      reg &&& alrmMinmask = 0#32 ∧ reg &&& alrmSecmask = 0#32 := by
  rw [h]
  simp [putBcd, BitVec.and_assoc, BitVec.and_or_distrib_right, alrmMdayMsk, alrmHourMsk, alrmMinMsk,
    alrmSecMsk, alrmDatemask, alrmWdsel, alrmHourmask, alrmMinmask, alrmSecmask]

end AlarmRegister

/-- An alarm in the register reads as the time it was made of. -/
theorem readAlarm_time {s : Stm32f2Rtc} {tm : RtcTime} (hvalid : rtcValidTm tm = true)
    (h : s.alrmar = Stm32f2Rtc.alarmValue tm.tmMday tm.tmWday tm.tmHour tm.tmMin tm.tmSec) :
    s.readAlarm.time.tmMday = tm.tmMday ∧ s.readAlarm.time.tmHour = tm.tmHour ∧
      s.readAlarm.time.tmMin = tm.tmMin ∧ s.readAlarm.time.tmSec = tm.tmSec := by
  obtain ⟨-, hmday, hhour, hmin, hsec⟩ := rtcValidTm_bounds hvalid
  rw [alarmValue_eq (by omega) hhour.1 hmin.1 hsec.1] at h
  obtain ⟨fmday, fhour, fmin, fsec⟩ := alarm_fields _ _ _ _ h
  obtain ⟨hdate, hwdsel, hhm, hmm, hsm⟩ := alarm_skips _ _ _ _ h
  have hd : TwoDigits 24 alrmMdayMsk 32 := by decide
  have hh : TwoDigits 16 alrmHourMsk 24 := by decide
  have hm : TwoDigits 8 alrmMinMsk 60 := by decide
  have hs : TwoDigits 0 alrmSecMsk 60 := by decide
  refine ⟨?_, ?_, ?_, ?_⟩
  · rw [Stm32f2Rtc.readAlarm, if_neg (not_not_intro hdate), if_neg (not_not_intro hwdsel)]
    exact (getBcd_congr fmday).trans (hd.get (by omega) (by omega))
  · rw [Stm32f2Rtc.readAlarm, if_neg (not_not_intro hhm)]
    exact (getBcd_congr fhour).trans (hh.get (by omega) (by omega))
  · rw [Stm32f2Rtc.readAlarm, if_neg (not_not_intro hmm)]
    exact (getBcd_congr fmin).trans (hm.get (by omega) (by omega))
  · rw [Stm32f2Rtc.readAlarm, if_neg (not_not_intro hsm)]
    exact (getBcd_congr fsec).trans (hs.get (by omega) (by omega))

/-- Setting an alarm succeeds, it reads back with its day, time and enabled flag, and its interrupt
is enabled exactly if it is. -/
def AlarmReadsBack (s : Stm32f2Rtc) (alrm : RtcWkalrm) : Prop :=
  ∃ s', s.setAlarm alrm = some (0, s') ∧
    s'.readAlarm.time.tmMday = alrm.time.tmMday ∧ s'.readAlarm.time.tmHour = alrm.time.tmHour ∧
    s'.readAlarm.time.tmMin = alrm.time.tmMin ∧ s'.readAlarm.time.tmSec = alrm.time.tmSec ∧
    s'.readAlarm.enabled = alrm.enabled ∧ (s'.cr &&& crAlraie ≠ 0#32 ↔ alrm.enabled = true)

theorem or_and_ne_zero {x m : BitVec 32} {i : Nat} (hm : m = 1#32 <<< i) (hi : i < 32) :
    (x ||| m) &&& m ≠ 0#32 := by
  rw [hm]
  apply Stm32f2Rtc.and_bit_ne_zero hi
  rw [BitVec.getLsbD_or, one_shiftLeft_bit hi, decide_eq_true rfl, Bool.or_true]

/-- From every state an alarm with a valid time reads back exactly if it is enabled. -/
theorem rtc_alarm_round_trip (s : Stm32f2Rtc) (alrm : RtcWkalrm)
    (hvalid : rtcValidTm alrm.time = true) :
    AlarmReadsBack s alrm ↔ alrm.enabled = true := by
  obtain ⟨t, ht, hcr, halrm, -⟩ := s.setupAlarm_zero alrm.time.tmMday alrm.time.tmWday
    alrm.time.tmHour alrm.time.tmMin alrm.time.tmSec
  have hset : s.setAlarm alrm = some (0, if alrm.enabled then t.alarmIrqEnable 0 true else t) := by
    rw [Stm32f2Rtc.setAlarm, if_pos hvalid, ht, Option.map_some]
  have hae : (s.cr ||| crAlrae) &&& crAlrae ≠ 0#32 := or_and_ne_zero rfl (by decide)
  constructor
  · rintro ⟨s', hs', -, -, -, -, henabled, -⟩
    cases he : alrm.enabled with
    | true => rfl
    | false =>
      -- the alarm itself is enabled whether its interrupt is or not
      rw [hset, he, if_neg Bool.false_ne_true] at hs'
      cases hs'
      rw [he, Stm32f2Rtc.readAlarm, hcr, decide_eq_true hae] at henabled
      cases henabled
  · intro he
    rw [he, if_pos rfl] at hset
    have halrm' : (t.alarmIrqEnable 0 true).alrmar = t.alrmar := by
      rw [Stm32f2Rtc.alarmIrqEnable_zero, Stm32f2Rtc.changeIrq_alrmar]
    have hcr' : (t.alarmIrqEnable 0 true).cr = s.cr ||| crAlrae ||| crAlraie := by
      rw [Stm32f2Rtc.alarmIrqEnable_zero, Stm32f2Rtc.changeIrq_cr, if_pos rfl, hcr]
    obtain ⟨hmday, hhour, hmin, hsec⟩ := readAlarm_time hvalid (halrm'.trans halrm)
    refine ⟨_, hset, hmday, hhour, hmin, hsec, ?_, fun _ => he, fun _ => ?_⟩
    · rw [he, Stm32f2Rtc.readAlarm, hcr']
      apply decide_eq_true
      rw [BitVec.or_assoc, BitVec.or_comm crAlrae, ← BitVec.or_assoc]
      exact or_and_ne_zero rfl (by decide)
    · rw [hcr']
      exact or_and_ne_zero rfl (by decide)

/-- The leap day of 2024 at 07:30:15. -/
def leapDay : RtcTime := ⟨15, 30, 7, 29, 1, 124, 4⟩

/-- An enabled alarm reads back. -/
theorem rtc_alarm_round_trip_leap_day :
    rtcValidTm leapDay = true ∧ AlarmReadsBack .pendingAll ⟨true, false, leapDay⟩ := by
  have hvalid : rtcValidTm leapDay = true := by decide
  exact ⟨hvalid, (rtc_alarm_round_trip _ ⟨true, false, leapDay⟩ hvalid).mpr rfl⟩

/-- An alarm that is set but not enabled reads back as enabled. -/
theorem rtc_alarm_disabled_reads_enabled :
    ((Stm32f2Rtc.pendingAll.setAlarm ⟨false, false, leapDay⟩).map fun r =>
        (r.1, r.2.readAlarm.enabled)) = some (0, true) ∧
      ¬ AlarmReadsBack .pendingAll ⟨false, false, leapDay⟩ := by
  refine ⟨by decide, ?_⟩
  rintro ⟨s', hs', -, -, -, -, henabled, -⟩
  have hread : ((Stm32f2Rtc.pendingAll.setAlarm ⟨false, false, leapDay⟩).map fun r =>
      r.2.readAlarm.enabled) = some true := by
    decide
  rw [hs', Option.map_some, henabled] at hread
  exact absurd hread (by decide)

end LinuxStm32.Drivers.Rtc
