import Mathlib.Algebra.Order.Group.Nat
import Mathlib.Data.Nat.Log
import Mathlib.Logic.Function.Iterate
import Mathlib.Tactic.Ring

/-!
# The system tick timer

Model of `arch/arm/mach-stm32/timer.c:86–125,153–271`: `tick_tmr_init`, `tick_tmr_set_mode` and
the timer they program. The counter has 16 bits on the STM32F1 and 32 on the others. The
prescaler and the auto-reload value are preloaded: they become active at an update, which `UG`
forces. With the counter enabled the timer raises an update on every
`(ARR + 1) * (PSC + 1)`-th clock. The clock and the reset of the timer in the clock controller,
the interrupt line and the registration of the device are left out.
-/

namespace LinuxStm32.Mach.TickTimer

/-- `TICK_TIM_COUNTER_BITWIDTH`. -/
inductive CounterWidth
  | bits16
  | bits32
  deriving DecidableEq, Repr

/-- The number of bits of the counter. -/
def CounterWidth.bits : CounterWidth → Nat
  | .bits16 => 16
  | .bits32 => 32

/-- The registers of the timer, the values active in it and its two counters. -/
structure Tim where
  cen : Bool
  arpe : Bool
  uie : Bool
  uif : Bool
  arr : Nat
  psc : Nat
  activeArr : Nat
  activePsc : Nat
  cnt : Nat
  prescaler : Nat
  deriving DecidableEq, Repr

/-! ### The timer -/

/-- An update: the preloaded values become active and both counters start again. -/
def Tim.update (t : Tim) : Tim :=
  { t with uif := true, activeArr := t.arr, activePsc := t.psc, cnt := 0, prescaler := 0 }

/-- A store to `arr`: without `ARPE` it is active at once. -/
def Tim.writeArr (w : CounterWidth) (v : Nat) (t : Tim) : Tim :=
  let arr := v % 2 ^ w.bits
  { t with arr, activeArr := if t.arpe then t.activeArr else arr }

/-- A store to `psc`, a register of 16 bits. -/
def Tim.writePsc (v : Nat) (t : Tim) : Tim := { t with psc := v % 2 ^ 16 }

/-- One clock at the input of the timer, and whether it raised an update. -/
def Tim.clock (t : Tim) : Tim × Bool :=
  if ¬ t.cen then (t, false)
  else if t.prescaler < t.activePsc then ({ t with prescaler := t.prescaler + 1 }, false)
  else if t.cnt < t.activeArr then ({ t with prescaler := 0, cnt := t.cnt + 1 }, false)
  else (t.update, true)

/-- The timer after some clocks. -/
def Tim.run (n : Nat) (t : Tim) : Tim := (fun t => t.clock.1)^[n] t

/-! ### The driver -/

/-- `ilog2` of a variable: `fls(n) - 1`. -/
def ilog2 (n : Nat) : Int := if n = 0 then -1 else Nat.log2 n

/-- `div` of `tick_tmr_init`: the wanted divider, the prescaler included. -/
def tickDiv (hz clk : Nat) : Nat := clk / hz

/-- `psc_pwr`: the prescaler divides by two to this power. -/
def pscPwr (w : CounterWidth) (div : Nat) : Nat :=
  let pscPwr := ilog2 div - w.bits + 1
  if pscPwr < 0 then 0 else pscPwr.toNat

/-- `tick_tmr_init`: the stores to the timer, for the clock `tick_tmr_clk`. -/
def tickTmrInit (w : CounterWidth) (hz clk : Nat) (t : Tim) : Tim :=
  let div := tickDiv hz clk
  let pscPwr := pscPwr w div
  let t := { t with cen := false, arpe := true }
  let t := t.writeArr w (div >>> pscPwr)
  let t := t.writePsc ((1 <<< pscPwr) - 1)
  { t.update with uie := true }

/-- `enum clock_event_mode`, as far as the driver tells the modes apart. -/
inductive ClockEventMode
  | periodic
  | other
  deriving DecidableEq, Repr

/-- `tick_tmr_set_mode`. -/
def tickTmrSetMode (mode : ClockEventMode) (t : Tim) : Tim :=
  match mode with
  | .periodic => { t with cen := true }
  | .other => { t with cen := false }

/-- The clocks between two updates with the programmed values. -/
def Tim.period (t : Tim) : Nat := (t.arr + 1) * (t.psc + 1)

/-- A running timer whose programmed values are the active ones. -/
structure Tim.Running (t : Tim) : Prop where
  cen : t.cen = true
  arr : t.activeArr = t.arr
  psc : t.activePsc = t.psc
  cnt_le : t.cnt ≤ t.arr
  prescaler_le : t.prescaler ≤ t.psc

/-- The clocks since the last update. -/
def Tim.elapsed (t : Tim) : Nat := t.cnt * (t.psc + 1) + t.prescaler

/-! ### The updates of a running timer -/

theorem Tim.Running.elapsed_lt {t : Tim} (h : t.Running) : t.elapsed < t.period := by
  unfold Tim.elapsed Tim.period
  calc t.cnt * (t.psc + 1) + t.prescaler
      < t.cnt * (t.psc + 1) + (t.psc + 1) := by have := h.prescaler_le; omega
    _ = (t.cnt + 1) * (t.psc + 1) := by ring
    _ ≤ (t.arr + 1) * (t.psc + 1) := Nat.mul_le_mul_right _ (by have := h.cnt_le; omega)

/-- One clock keeps the timer running with the same period; it raises an update exactly when a
whole period has gone by. -/
theorem Tim.Running.clock {t : Tim} (h : t.Running) :
    t.clock.1.Running ∧ t.clock.1.period = t.period ∧
      t.clock.1.elapsed = (t.elapsed + 1) % t.period ∧
        (t.clock.2 = true ↔ t.elapsed + 1 = t.period) := by
  obtain ⟨cen, arr, psc, hcnt, hpre⟩ := h
  have hlt := Tim.Running.elapsed_lt ⟨cen, arr, psc, hcnt, hpre⟩
  unfold Tim.clock
  rw [if_neg (by simp [cen]), arr, psc]
  split_ifs with h₁ h₂
  · have hne : t.elapsed + 1 ≠ t.period := by
      intro heq
      have hmod := congrArg (· % (t.psc + 1)) heq
      unfold Tim.elapsed Tim.period at hmod
      simp only [Nat.mul_mod_left, Nat.add_assoc, Nat.mul_comm t.cnt, Nat.mul_add_mod] at hmod
      rw [Nat.mod_eq_of_lt (by omega)] at hmod
      omega
    refine ⟨⟨cen, rfl, rfl, hcnt, h₁⟩, rfl, ?_, by simp [hne]⟩
    rw [Nat.mod_eq_of_lt (by omega)]
    rfl
  · have hpre' : t.prescaler = t.psc := by omega
    have hnext : t.elapsed + 1 = (t.cnt + 1) * (t.psc + 1) := by
      rw [Tim.elapsed, hpre']
      ring
    have hne : t.elapsed + 1 < t.period := by
      rw [hnext, Tim.period]
      exact Nat.mul_lt_mul_of_pos_right (by omega) (Nat.succ_pos _)
    refine ⟨⟨cen, rfl, rfl, h₂, Nat.zero_le _⟩, rfl, ?_, by simp [hne.ne]⟩
    rw [Nat.mod_eq_of_lt hne, hnext]
    rfl
  · have hpre' : t.prescaler = t.psc := by omega
    have hcnt' : t.cnt = t.arr := by omega
    have hnext : t.elapsed + 1 = t.period := by
      rw [Tim.elapsed, Tim.period, hpre', hcnt']
      ring
    refine ⟨⟨cen, rfl, rfl, Nat.zero_le _, Nat.zero_le _⟩, rfl, ?_, by simp [hnext]⟩
    rw [hnext, Nat.mod_self]
    exact Nat.zero_mul _

/-- What any number of clocks does to a running timer that has just been updated. -/
theorem Tim.Running.run {t : Tim} (h : t.Running) (h₀ : t.elapsed = 0) (n : Nat) :
    (t.run n).Running ∧ (t.run n).period = t.period ∧ (t.run n).elapsed = n % t.period := by
  induction n with
  | zero => exact ⟨h, rfl, by rw [Nat.zero_mod]; exact h₀⟩
  | succ n ih =>
    obtain ⟨hrun, hperiod, helapsed⟩ := ih
    have hstep : t.run (n + 1) = (t.run n).clock.1 := Function.iterate_succ_apply' _ _ _
    obtain ⟨hrun', hperiod', helapsed', -⟩ := hrun.clock
    rw [hstep]
    refine ⟨hrun', hperiod'.trans hperiod, ?_⟩
    rw [helapsed', helapsed, hperiod, Nat.mod_add_mod]

/-- The clocks that raise an update are the multiples of the period. -/
theorem Tim.Running.update_iff {t : Tim} (h : t.Running) (h₀ : t.elapsed = 0) (n : Nat) :
    (t.run n).clock.2 = true ↔ t.period ∣ n + 1 := by
  obtain ⟨hrun, hperiod, helapsed⟩ := h.run h₀ n
  have hpos : 0 < t.period := Nat.mul_pos (Nat.succ_pos _) (Nat.succ_pos _)
  have hlt := Nat.mod_lt n hpos
  obtain ⟨-, -, -, hup⟩ := hrun.clock
  rw [hup, helapsed, hperiod, Nat.dvd_iff_mod_eq_zero, Nat.add_mod, Nat.add_mod_mod]
  constructor
  · intro heq
    rw [heq, Nat.mod_self]
  · intro hz
    by_contra hne
    rw [Nat.mod_eq_of_lt (by omega)] at hz
    omega

/-! ### The programmed values -/

theorem pscPwr_eq (w : CounterWidth) {div : Nat} (h : 0 < div) :
    pscPwr w div = Nat.log2 div + 1 - w.bits := by
  unfold pscPwr ilog2
  rw [if_neg h.ne']
  dsimp only
  split_ifs <;> omega

/-- The quotient left to the counter fits it. -/
theorem shiftRight_pscPwr_lt (w : CounterWidth) {div : Nat} (h : 0 < div) :
    div >>> pscPwr w div < 2 ^ w.bits := by
  rw [pscPwr_eq w h, Nat.shiftRight_eq_div_pow]
  apply Nat.div_lt_of_lt_mul
  rw [← Nat.pow_add]
  calc div < 2 ^ (Nat.log2 div + 1) := Nat.lt_log2_self
    _ ≤ _ := Nat.pow_le_pow_right (by decide) (by omega)

/-- The prescaler never needs more than its 16 bits. -/
theorem pscPwr_le (w : CounterWidth) {div : Nat} (h : 0 < div) (hlt : div < 2 ^ 32) :
    pscPwr w div ≤ 16 := by
  have hlog : Nat.log2 div < 32 := (Nat.log2_lt h.ne').2 hlt
  rw [pscPwr_eq w h]
  cases w <;> simp only [CounterWidth.bits] <;> omega

/-- The divider of the clock for the tick is a word that is not 0. -/
theorem tickDiv_bounds {hz clk : Nat} (hhz : 0 < hz) (hle : hz ≤ clk) (hclk : clk < 2 ^ 32) :
    0 < tickDiv hz clk ∧ tickDiv hz clk < 2 ^ 32 :=
  ⟨Nat.div_pos hle hhz, (Nat.div_le_self _ _).trans_lt hclk⟩

theorem psc_fits (w : CounterWidth) {div : Nat} (h : 0 < div) (hlt : div < 2 ^ 32) :
    (1 <<< pscPwr w div) - 1 < 2 ^ 16 := by
  have hpow : 2 ^ pscPwr w div ≤ 2 ^ 16 := Nat.pow_le_pow_right (by decide) (pscPwr_le w h hlt)
  have hone : 0 < 2 ^ pscPwr w div := Nat.two_pow_pos _
  rw [Nat.one_shiftLeft]
  omega

/-- The timer after `tick_tmr_init` and the start of the periodic mode. -/
def tickTimer (w : CounterWidth) (hz clk : Nat) (t : Tim) : Tim :=
  tickTmrSetMode .periodic (tickTmrInit w hz clk t)

theorem tickTimer_running (w : CounterWidth) (hz clk : Nat) (t : Tim) :
    (tickTimer w hz clk t).Running ∧ (tickTimer w hz clk t).elapsed = 0 :=
  ⟨⟨rfl, rfl, rfl, Nat.zero_le _, Nat.zero_le _⟩, Nat.zero_mul _⟩

/-- What the tick is to be: programmed values that fit their registers, and a period of at most
`div` clocks that misses it by less than one step of the prescaler. -/
structure TickExact (w : CounterWidth) (hz clk : Nat) (t : Tim) : Prop where
  arr_fits : tickDiv hz clk >>> pscPwr w (tickDiv hz clk) < 2 ^ w.bits
  psc_fits : (1 <<< pscPwr w (tickDiv hz clk)) - 1 < 2 ^ 16
  period_le : (tickTimer w hz clk t).period ≤ tickDiv hz clk
  near : tickDiv hz clk - (tickTimer w hz clk t).period < 2 ^ pscPwr w (tickDiv hz clk)
  no_prescaler : pscPwr w (tickDiv hz clk) = 0 → (tickTimer w hz clk t).period = tickDiv hz clk

/-- The period is always longer than the wanted divider: `arr` is stored without the one that
the timer adds to it. -/
theorem tickTimer_period (w : CounterWidth) {hz clk : Nat} (hhz : 0 < hz) (hle : hz ≤ clk)
    (hclk : clk < 2 ^ 32) (t : Tim) :
    (tickTimer w hz clk t).period =
      (tickDiv hz clk / 2 ^ pscPwr w (tickDiv hz clk) + 1) * 2 ^ pscPwr w (tickDiv hz clk) := by
  obtain ⟨hpos, hlt⟩ := tickDiv_bounds hhz hle hclk
  have hone : 0 < 2 ^ pscPwr w (tickDiv hz clk) := Nat.two_pow_pos _
  change (tickDiv hz clk >>> pscPwr w (tickDiv hz clk) % 2 ^ w.bits + 1) *
    (((1 <<< pscPwr w (tickDiv hz clk)) - 1) % 2 ^ 16 + 1) = _
  rw [Nat.mod_eq_of_lt (shiftRight_pscPwr_lt w hpos), Nat.mod_eq_of_lt (psc_fits w hpos hlt),
    Nat.shiftRight_eq_div_pow, Nat.one_shiftLeft, Nat.sub_add_cancel hone]

/-- For every clock and both widths the programmed values fit, and the updates come regularly,
but with a period of more than `div` clocks and at most one step of the prescaler more. The tick
is never exact. -/
theorem tick_period_too_long (w : CounterWidth) (hz clk : Nat) (hhz : 0 < hz) (hle : hz ≤ clk)
    (hclk : clk < 2 ^ 32) (t : Tim) :
    ¬ TickExact w hz clk t ∧
      tickDiv hz clk >>> pscPwr w (tickDiv hz clk) < 2 ^ w.bits ∧
      (1 <<< pscPwr w (tickDiv hz clk)) - 1 < 2 ^ 16 ∧
      tickDiv hz clk < (tickTimer w hz clk t).period ∧
      (tickTimer w hz clk t).period ≤ tickDiv hz clk + 2 ^ pscPwr w (tickDiv hz clk) ∧
      ∀ n, (((tickTimer w hz clk t).run n).clock.2 = true ↔
        (tickTimer w hz clk t).period ∣ n + 1) := by
  obtain ⟨hpos, hlt⟩ := tickDiv_bounds hhz hle hclk
  have hone : 0 < 2 ^ pscPwr w (tickDiv hz clk) := Nat.two_pow_pos _
  have hperiod := tickTimer_period w hhz hle hclk t
  have hlong : tickDiv hz clk < (tickTimer w hz clk t).period := by
    rw [hperiod, Nat.mul_comm]
    exact Nat.lt_mul_div_succ _ hone
  have hshort : (tickTimer w hz clk t).period ≤
      tickDiv hz clk + 2 ^ pscPwr w (tickDiv hz clk) := by
    rw [hperiod, Nat.succ_mul]
    exact Nat.add_le_add_right (Nat.div_mul_le_self _ _) _
  obtain ⟨hrun, h₀⟩ := tickTimer_running w hz clk t
  refine ⟨fun hexact => ?_, shiftRight_pscPwr_lt w hpos, psc_fits w hpos hlt, hlong, hshort,
    hrun.update_iff h₀⟩
  exact absurd hexact.period_le hlong.not_ge

/-- A timer out of reset. -/
def resetTim : Tim := ⟨false, false, false, false, 0, 0, 0, 0, 0, 0⟩

/-- At 100 MHz and 100 ticks a second, where `div` is 1000000. -/
theorem tick_period_too_long_100MHz :
    ¬ TickExact .bits32 100 100000000 resetTim ∧
      tickDiv 100 100000000 < (tickTimer .bits32 100 100000000 resetTim).period := by
  have h := tick_period_too_long .bits32 100 100000000 (by decide) (by decide) (by decide) resetTim
  exact ⟨h.1, h.2.2.2.1⟩

/-- The period is then 1000001 clocks, although no prescaler is needed. -/
theorem tick_100MHz_not_exact :
    pscPwr .bits32 (tickDiv 100 100000000) = 0 ∧
      (tickTimer .bits32 100 100000000 resetTim).period = 1000001 ∧
      ¬ TickExact .bits32 100 100000000 resetTim := by
  have hpwr : pscPwr .bits32 (tickDiv 100 100000000) = 0 := by decide +kernel
  have hperiod : (tickTimer .bits32 100 100000000 resetTim).period = 1000001 := by decide +kernel
  refine ⟨hpwr, hperiod, fun h => ?_⟩
  have heq := h.no_prescaler hpwr
  rw [hperiod] at heq
  exact absurd heq (by decide)

end LinuxStm32.Mach.TickTimer
