import LinuxStm32.Base.Field
import LinuxStm32.Base.System
import Mathlib.Logic.Function.Basic

/-!
# GPIO interrupts

`arch/arm/mach-stm32/gpio.c:212–335` and `arch/arm/mach-stm32/exti.c`. The pins with one number, of
all ports, share a line of the EXTI controller; `exti_2_gpio` says which GPIO a line belongs to.
A GPIO is the number of its interrupt above `irq_base`. Each call runs with interrupts disabled;
acknowledging and unmasking at the NVIC is left out. `owner` records for each line the GPIO that
was connected last; `fault` that `exti_2_gpio` was accessed outside its bounds. The handler is one
step: an edge between its `generic_handle_irq` and its `stm32_exti_clear_pending`, which that clears
without a further call, is in no run.
-/

namespace LinuxStm32.Mach

open Base

/-- The EXTI registers and `SYSCFG_EXTICR`. -/
structure Exti where
  imr : BitVec 32
  rtsr : BitVec 32
  ftsr : BitVec 32
  pr : BitVec 32
  exticr : Nat → BitVec 32

/-- The controller, `struct stm32_gpio_chip` and the masked flags of the GPIO interrupts. -/
structure GpioIrq extends Exti where
  irqBase : Nat
  exti2gpio : Nat → Int
  masked : Nat → Bool
  fault : Bool
  owner : Nat → Option Nat

/-- `STM32_EXTI_LINES_LEN`, `arch/arm/mach-stm32/gpio.c:62`. -/
def extiLinesLen : Nat := 15

/-- `STM32_GPIO_PORT_PINS`. -/
def gpioPortPins : Nat := 16

/-- `STM32_GPIO_LEN`: nine ports. -/
def gpioLen : Nat := gpioPortPins * 9

namespace Exti

/-- `stm32_exti_clear_pending`, `arch/arm/mach-stm32/exti.c:177`: a 1 clears its bit. -/
def clearPending (e : Exti) (line : Nat) : Exti := { e with pr := clearBit e.pr line }

/-- `stm32_exti_connect`, `arch/arm/mach-stm32/exti.c:72`. -/
def connect (e : Exti) (line pin : Nat) : Exti :=
  { e with
    exticr := Function.update e.exticr (line / 4)
      (setField (e.exticr (line / 4)) (line % 4 * 4) 4 (BitVec.ofNat 32 pin)) }

/-- `stm32_exti_enable_int`, `arch/arm/mach-stm32/exti.c:96`. -/
def enableInt (e : Exti) (line : Nat) (enable : Bool) : Exti :=
  if enable then
    let e := e.clearPending line
    { e with imr := setBit e.imr line }
  else
    let e := { e with
      imr := clearBit e.imr line
      rtsr := clearBit e.rtsr line
      ftsr := clearBit e.ftsr line }
    e.clearPending line

end Exti

namespace GpioIrq

/-- An access to `exti_2_gpio[line]`. -/
def access (s : GpioIrq) (line : Nat) : GpioIrq :=
  { s with fault := s.fault || decide (extiLinesLen ≤ line) }

/-- `stm32_gpio_irq_enable`, `arch/arm/mach-stm32/gpio.c:268`. -/
def irqEnable (s : GpioIrq) (gpio : Nat) : GpioIrq :=
  let line := gpio % gpioPortPins
  let pin := gpio / gpioPortPins
  let s := s.access line
  { s with
    toExti := (s.toExti.connect line pin).enableInt line true
    exti2gpio := if line < extiLinesLen then Function.update s.exti2gpio line gpio else s.exti2gpio
    masked := Function.update s.masked gpio false
    owner := Function.update s.owner line (some gpio) }

/-- `stm32_gpio_irq_disable`, `arch/arm/mach-stm32/gpio.c:314`. -/
def irqDisable (s : GpioIrq) (gpio : Nat) : GpioIrq :=
  let line := gpio % gpioPortPins
  { s with
    toExti := s.toExti.enableInt line false
    masked := Function.update s.masked gpio true }

/-- The loop of `stm32_exti_irq_handler` over the pending bits, `n` lines left from `line` on. The
result has the interrupt numbers that were handled, with their lines. -/
def dispatch (pending : BitVec 32) : Nat → Nat → GpioIrq → List (Nat × Int) × GpioIrq
  | 0, _, s => ([], s)
  | n + 1, line, s =>
    if pending.getLsbD line then
      let s := s.access line
      let irq := s.irqBase + s.exti2gpio line
      let r := dispatch pending n (line + 1) { s with toExti := s.toExti.clearPending line }
      ((line, irq) :: r.1, r.2)
    else dispatch pending n (line + 1) s

/-- `stm32_exti_irq_handler`, `arch/arm/mach-stm32/gpio.c:219`. -/
def extiIrqHandler (s : GpioIrq) : List (Nat × Int) × GpioIrq := dispatch s.pr extiLinesLen 0 s

end GpioIrq

/-- Calls for a GPIO, an edge on a line and a run of the chained handler. -/
inductive GpioIrqAct
  | enable (gpio : Nat)
  | disable (gpio : Nat)
  | edge (line : Nat)
  | handler
  deriving DecidableEq, Repr

/-- One action; the GPIOs are those of the chip. -/
def gpioIrqStep (s : GpioIrq) : GpioIrqAct → Option GpioIrq
  | .enable gpio => if gpio < gpioLen then some (s.irqEnable gpio) else none
  | .disable gpio => if gpio < gpioLen then some (s.irqDisable gpio) else none
  | .edge line => some { s with pr := setBit s.pr line }
  | .handler => some s.extiIrqHandler.2

/-- All runs from `stm32_gpio_init`: no GPIO is connected and the sixteen GPIO lines are masked. -/
def gpioIrqSystem : System GpioIrq GpioIrqAct where
  init s := (∀ line, s.exti2gpio line = -1) ∧ (∀ line, s.owner line = none) ∧
    (∀ line < gpioPortPins, s.imr.getLsbD line = false) ∧ s.fault = false
  step := gpioIrqStep

/-! ### What the handler does -/

/-- The loop handles the pending lines of its range, clears them and changes nothing else. -/
theorem dispatch_spec (pending : BitVec 32) {n line : Nat} (s : GpioIrq)
    (hn : line + n ≤ extiLinesLen) :
    (∀ x, x ∈ (GpioIrq.dispatch pending n line s).1 ↔ ∃ l, line ≤ l ∧ l < line + n ∧
        pending.getLsbD l = true ∧ x = (l, s.irqBase + s.exti2gpio l)) ∧
      ((GpioIrq.dispatch pending n line s).1.map Prod.fst).Nodup ∧
      (∀ l, (GpioIrq.dispatch pending n line s).2.pr.getLsbD l = true ↔ s.pr.getLsbD l = true ∧
        ¬ (line ≤ l ∧ l < line + n ∧ pending.getLsbD l = true)) ∧
      ∃ pr, (GpioIrq.dispatch pending n line s).2 = { s with pr := pr } := by
  induction n generalizing line s with
  | zero =>
    refine ⟨fun x => ⟨nofun, ?_⟩, List.nodup_nil, fun l => ⟨fun h => ⟨h, by omega⟩, And.left⟩,
      s.pr, rfl⟩
    rintro ⟨l, hl, hlt, _⟩
    omega
  | succ n ih =>
    rw [GpioIrq.dispatch]
    by_cases hp : pending.getLsbD line = true
    · rw [if_pos hp]
      have haccess : s.access line = s := by
        have hin : ¬ extiLinesLen ≤ line := by omega
        rw [GpioIrq.access, decide_eq_false hin, Bool.or_false]
      rw [haccess]
      obtain ⟨hmem, hnodup, hpr, pr, heq⟩ :=
        @ih (line + 1) { s with toExti := s.toExti.clearPending line } (by omega)
      dsimp only at hmem hnodup hpr heq ⊢
      refine ⟨fun x => ?_, ?_, fun l => ?_, pr, ?_⟩
      · rw [List.mem_cons, hmem]
        constructor
        · rintro (rfl | ⟨l, hl, hlt, hb, rfl⟩)
          · exact ⟨line, Nat.le_refl _, by omega, hp, rfl⟩
          · exact ⟨l, by omega, by omega, hb, rfl⟩
        · rintro ⟨l, hl, hlt, hb, rfl⟩
          by_cases he : l = line
          · rw [he]
            exact .inl rfl
          · exact .inr ⟨l, by omega, by omega, hb, rfl⟩
      · rw [List.map_cons, List.nodup_cons]
        refine ⟨fun hin => ?_, hnodup⟩
        obtain ⟨x, hx, hfst⟩ := List.mem_map.mp hin
        obtain ⟨l, hl, _, _, rfl⟩ := (hmem x).mp hx
        dsimp only at hfst
        omega
      · rw [hpr]
        simp only [Exti.clearPending, clearBit_bit, Bool.and_eq_true, Bool.not_eq_true',
          decide_eq_false_iff_not]
        constructor
        · rintro ⟨⟨hb, hne⟩, hout⟩
          refine ⟨hb, fun hin => hout ⟨?_, by omega, hin.2.2⟩⟩
          omega
        · rintro ⟨hb, hout⟩
          refine ⟨⟨hb, fun he => hout ⟨by omega, by omega, he ▸ hp⟩⟩,
            fun hin => hout ⟨by omega, by omega, hin.2.2⟩⟩
      · rw [heq]
        rfl
    · rw [if_neg hp]
      obtain ⟨hmem, hnodup, hpr, pr, heq⟩ := @ih (line + 1) s (by omega)
      have hrange : ∀ l, (line + 1 ≤ l ∧ l < line + 1 + n ∧ pending.getLsbD l = true) ↔
          (line ≤ l ∧ l < line + (n + 1) ∧ pending.getLsbD l = true) := by
        intro l
        constructor
        · rintro ⟨hl, hlt, hb⟩
          exact ⟨by omega, by omega, hb⟩
        · rintro ⟨hl, hlt, hb⟩
          have hne : l ≠ line := fun he => hp (he ▸ hb)
          exact ⟨by omega, by omega, hb⟩
      refine ⟨fun x => ?_, hnodup, fun l => ?_, pr, heq⟩
      · rw [hmem]
        constructor
        · rintro ⟨l, hl, hlt, hb, rfl⟩
          exact ⟨l, by omega, by omega, hb, rfl⟩
        · rintro ⟨l, hl, hlt, hb, rfl⟩
          obtain ⟨hl', hlt', _⟩ := (hrange l).mpr ⟨hl, hlt, hb⟩
          exact ⟨l, hl', hlt', hb, rfl⟩
      · rw [hpr, hrange]

/-- The handler from any state. -/
theorem handler_spec (s : GpioIrq) :
    (∀ x, x ∈ s.extiIrqHandler.1 ↔ ∃ l < extiLinesLen,
        s.pr.getLsbD l = true ∧ x = (l, s.irqBase + s.exti2gpio l)) ∧
      (s.extiIrqHandler.1.map Prod.fst).Nodup ∧
      (∀ l < extiLinesLen, s.extiIrqHandler.2.pr.getLsbD l = false) ∧
      ∃ pr, s.extiIrqHandler.2 = { s with pr := pr } := by
  obtain ⟨hmem, hnodup, hpr, heq⟩ := dispatch_spec s.pr s (Nat.le_of_eq (Nat.zero_add extiLinesLen))
  refine ⟨fun x => ?_, hnodup, fun l hl => ?_, heq⟩
  · rw [GpioIrq.extiIrqHandler, hmem]
    constructor
    · rintro ⟨l, _, hl, h⟩
      exact ⟨l, by omega, h⟩
    · rintro ⟨l, hl, h⟩
      exact ⟨l, Nat.zero_le l, by omega, h⟩
  · rw [← Bool.not_eq_true]
    intro hb
    obtain ⟨hbit, hout⟩ := (hpr l).mp hb
    exact hout ⟨Nat.zero_le l, by omega, hbit⟩

/-! ### Runs -/

/-- What the table says about a line. -/
def ownerEntry : Option Nat → Int
  | some gpio => gpio
  | none => -1

/-- No access outside the table, which agrees with the owners; a line that is not masked has one. -/
structure RouteInv (s : GpioIrq) : Prop where
  fault : s.fault = false
  pin : ∀ line gpio, s.owner line = some gpio → gpio < gpioLen ∧ gpio % gpioPortPins = line
  table : ∀ line < extiLinesLen, s.exti2gpio line = ownerEntry (s.owner line)
  unmasked : ∀ line < gpioPortPins, s.imr.getLsbD line = true →
    line < extiLinesLen ∧ ∃ gpio, s.owner line = some gpio

/-- No pin 15 is enabled; a GPIO is disabled only if its line is its own or masked; when the handler
runs, every pending line it looks at has been connected. -/
def RouteOk (s : GpioIrq) : GpioIrqAct → Prop
  | .enable gpio => gpio % gpioPortPins < extiLinesLen
  | .disable gpio => s.owner (gpio % gpioPortPins) = some gpio ∨
      s.imr.getLsbD (gpio % gpioPortPins) = false
  | .edge _ => True
  | .handler => ∀ line < extiLinesLen, s.pr.getLsbD line = true → s.exti2gpio line ≠ -1

/-- The handler handles every pending line that is not masked once, for the GPIO that was connected
last, and only interrupts of GPIOs; afterwards no such line is pending. -/
structure Handled (s : GpioIrq) : Prop where
  owner : ∀ line < gpioPortPins, s.pr.getLsbD line = true → s.imr.getLsbD line = true →
    ∃ gpio : Nat, s.owner line = some gpio ∧
      ∀ irq, (line, irq) ∈ s.extiIrqHandler.1 ↔ irq = s.irqBase + gpio
  once : (s.extiIrqHandler.1.map Prod.fst).Nodup
  cleared : ∀ line < gpioPortPins, s.extiIrqHandler.2.imr.getLsbD line = true →
    s.extiIrqHandler.2.pr.getLsbD line = false
  range : ∀ x ∈ s.extiIrqHandler.1, (s.irqBase : Int) ≤ x.2 ∧ x.2 < s.irqBase + gpioLen

/-- What an action must do: stay inside the table, handle the pending lines, and mask no line of
another GPIO. -/
structure Routed (s : GpioIrq) (a : GpioIrqAct) (s' : GpioIrq) : Prop where
  inBounds : s'.fault = false
  handled : a = .handler → Handled s
  others : ∀ gpio, a = .disable gpio → ∀ line gpio', s.owner line = some gpio' → gpio' ≠ gpio →
    s'.imr.getLsbD line = s.imr.getLsbD line

private theorem enable_inv {s : GpioIrq} (h : RouteInv s) {gpio : Nat} (hg : gpio < gpioLen)
    (hline : gpio % gpioPortPins < extiLinesLen) : RouteInv (s.irqEnable gpio) := by
  have hin : ¬ extiLinesLen ≤ gpio % gpioPortPins := Nat.not_le.mpr hline
  constructor
  · show (s.fault || decide (extiLinesLen ≤ gpio % gpioPortPins)) = false
    rw [h.fault, decide_eq_false hin, Bool.or_false]
  · intro line gpio' hown
    change Function.update s.owner (gpio % gpioPortPins) (some gpio) line = some gpio' at hown
    by_cases hl : line = gpio % gpioPortPins
    · rw [hl, Function.update_self] at hown
      obtain rfl := Option.some.inj hown
      exact ⟨hg, hl.symm⟩
    · rw [Function.update_of_ne hl] at hown
      exact h.pin line gpio' hown
  · intro line hlt
    show (if gpio % gpioPortPins < extiLinesLen then
        Function.update s.exti2gpio (gpio % gpioPortPins) (gpio : Int) else s.exti2gpio) line =
      ownerEntry (Function.update s.owner (gpio % gpioPortPins) (some gpio) line)
    rw [if_pos hline]
    by_cases hl : line = gpio % gpioPortPins
    · rw [hl, Function.update_self, Function.update_self, ownerEntry]
    · rw [Function.update_of_ne hl, Function.update_of_ne hl]
      exact h.table line hlt
  · intro line hlt himr
    change (setBit s.imr (gpio % gpioPortPins)).getLsbD line = true at himr
    show line < extiLinesLen ∧
      ∃ gpio', Function.update s.owner (gpio % gpioPortPins) (some gpio) line = some gpio'
    by_cases hl : line = gpio % gpioPortPins
    · rw [hl, Function.update_self]
      exact ⟨hline, gpio, rfl⟩
    · rw [setBit_bit_of_ne (Ne.symm hl)] at himr
      rw [Function.update_of_ne hl]
      exact h.unmasked line hlt himr

private theorem disable_imr (s : GpioIrq) (gpio line : Nat) :
    (s.irqDisable gpio).imr.getLsbD line =
      (s.imr.getLsbD line && !decide (gpio % gpioPortPins = line)) := clearBit_bit

theorem routeInv_step {s s' : GpioIrq} {a : GpioIrqAct} (h : RouteInv s) (hok : RouteOk s a)
    (he : gpioIrqStep s a = some s') : RouteInv s' := by
  cases a with
  | enable gpio =>
    rw [gpioIrqStep] at he
    split at he
    next hg =>
      obtain rfl := Option.some.inj he
      exact enable_inv h hg hok
    next => cases he
  | disable gpio =>
    rw [gpioIrqStep] at he
    split at he
    next =>
      obtain rfl := Option.some.inj he
      refine ⟨h.fault, h.pin, h.table, fun line hlt himr => h.unmasked line hlt ?_⟩
      rw [disable_imr, Bool.and_eq_true] at himr
      exact himr.1
    next => cases he
  | edge line =>
    obtain rfl := Option.some.inj he
    exact ⟨h.fault, h.pin, h.table, h.unmasked⟩
  | handler =>
    obtain rfl := Option.some.inj he
    obtain ⟨_, _, _, pr, heq⟩ := handler_spec s
    rw [heq]
    exact ⟨h.fault, h.pin, h.table, h.unmasked⟩

theorem routeInv_reach {s : GpioIrq} (h : gpioIrqSystem.Reach RouteOk s) : RouteInv s := by
  apply System.Reach.invariant _ _ h
  · rintro s ⟨htable, howner, himr, hfault⟩
    constructor
    · exact hfault
    · intro line gpio hown
      rw [howner] at hown
      cases hown
    · intro line _
      rw [htable, howner, ownerEntry]
    · intro line hlt hb
      rw [himr line hlt] at hb
      cases hb
  · intro s a s' hs hok he
    exact routeInv_step hs hok he

private theorem handled_iff {s : GpioIrq} (h : RouteInv s) : Handled s ↔ RouteOk s .handler := by
  obtain ⟨hmem, hnodup, hclear, pr, heq⟩ := handler_spec s
  constructor
  · intro hh line hlt hb hentry
    have hr := hh.range _ ((hmem _).mpr ⟨line, hlt, hb, rfl⟩)
    dsimp only at hr
    omega
  · intro hok
    have hconn : ∀ line < extiLinesLen, s.pr.getLsbD line = true →
        ∃ gpio : Nat, s.owner line = some gpio ∧ s.exti2gpio line = gpio := by
      intro line hlt hb
      have hne := hok line hlt hb
      have ht := h.table line hlt
      cases hown : s.owner line with
      | none =>
        rw [hown, ownerEntry] at ht
        exact absurd ht hne
      | some gpio =>
        rw [hown, ownerEntry] at ht
        exact ⟨gpio, rfl, ht⟩
    refine ⟨fun line hlt hb himr => ?_, hnodup, fun line hlt himr => ?_, fun x hx => ?_⟩
    · have hlen := (h.unmasked line hlt himr).1
      obtain ⟨gpio, hown, hentry⟩ := hconn line hlen hb
      refine ⟨gpio, hown, fun irq => ?_⟩
      rw [hmem]
      constructor
      · rintro ⟨l, _, _, hx⟩
        obtain ⟨rfl, rfl⟩ := Prod.mk.inj hx
        rw [hentry]
      · rintro rfl
        exact ⟨line, hlen, hb, by rw [hentry]⟩
    · rw [heq] at himr
      exact hclear line (h.unmasked line hlt himr).1
    · obtain ⟨line, hlt, hb, rfl⟩ := (hmem x).mp hx
      obtain ⟨gpio, hown, hentry⟩ := hconn line hlt hb
      have hg := (h.pin line gpio hown).1
      dsimp only
      rw [hentry]
      omega

/-- In every run that keeps the condition, an action does what it must exactly if it keeps the
condition too. -/
theorem gpio_irq_routing {s s' : GpioIrq} {a : GpioIrqAct} (h : gpioIrqSystem.Reach RouteOk s)
    (he : gpioIrqStep s a = some s') : Routed s a s' ↔ RouteOk s a := by
  have hinv := routeInv_reach h
  constructor
  · intro hr
    cases a with
    | enable gpio =>
      rw [gpioIrqStep] at he
      split at he
      next =>
        obtain rfl := Option.some.inj he
        have hf : (s.fault || decide (extiLinesLen ≤ gpio % gpioPortPins)) = false := hr.inBounds
        rw [hinv.fault, Bool.false_or, decide_eq_false_iff_not] at hf
        exact Nat.not_le.mp hf
      next => cases he
    | disable gpio =>
      rw [gpioIrqStep] at he
      split at he
      next =>
        obtain rfl := Option.some.inj he
        by_contra hbad
        obtain ⟨hown, himr⟩ := not_or.mp hbad
        have himr := Bool.not_eq_false _ ▸ himr
        have hlt : gpio % gpioPortPins < gpioPortPins := Nat.mod_lt _ (by decide)
        obtain ⟨_, gpio', hown'⟩ := hinv.unmasked _ hlt himr
        have hne : gpio' ≠ gpio := fun hg => hown (hg ▸ hown')
        have hsame := hr.others gpio rfl _ gpio' hown' hne
        rw [disable_imr, himr, decide_eq_true rfl] at hsame
        cases hsame
      next => cases he
    | edge line => trivial
    | handler => exact (handled_iff hinv).mp (hr.handled rfl)
  · intro hok
    refine ⟨(routeInv_step hinv hok he).fault, ?_, ?_⟩
    · rintro rfl
      exact (handled_iff hinv).mpr hok
    · rintro gpio rfl line gpio' hown hne
      rw [gpioIrqStep] at he
      split at he
      next =>
        obtain rfl := Option.some.inj he
        rw [disable_imr]
        by_cases hl : gpio % gpioPortPins = line
        · rcases hok with hown' | himr
          · rw [hl, hown] at hown'
            exact absurd (Option.some.inj hown') hne
          · rw [hl] at himr
            rw [himr, Bool.false_and]
        · rw [decide_eq_false hl, Bool.not_false, Bool.and_true]
      next => cases he

/-- The state after `stm32_gpio_init`, with the interrupts of the GPIOs above 90. -/
def GpioIrq.start : GpioIrq where
  imr := 0#32
  rtsr := 0#32
  ftsr := 0#32
  pr := 0#32
  exticr _ := 0#32
  irqBase := 90
  exti2gpio _ := -1
  masked _ := true
  fault := false
  owner _ := none

/-- An edge on a line that belongs to `PA3` is handled. -/
theorem gpio_irq_routing_pa3 :
    ∃ s, gpioIrqSystem.exec .start [.enable 3, .edge 3] = some s ∧
      Routed s .handler s.extiIrqHandler.2 := by
  have h0 : gpioIrqSystem.Reach RouteOk .start :=
    .init ⟨fun _ => rfl, fun _ => rfl, fun _ _ => BitVec.getLsbD_zero, rfl⟩
  have hen : RouteOk .start (.enable 3) := by
    show 3 % gpioPortPins < extiLinesLen
    decide
  have hedge : RouteOk (GpioIrq.start.irqEnable 3) (.edge 3) := trivial
  refine ⟨_, rfl, (gpio_irq_routing ((h0.step hen rfl).step hedge rfl) rfl).mpr ?_⟩
  show ∀ line < extiLinesLen, _ → _
  decide

/-- `PA15` is enabled: the table is accessed outside its bounds and its line is never cleared. An
edge on a line without GPIO is handled as the interrupt below the first GPIO's. `PA0` is disabled
after `PB0` got the line: the line of `PB0` is masked. -/
theorem gpio_irq_misrouted :
    ((gpioIrqSystem.exec .start [.enable 15]).map GpioIrq.fault) = some true ∧
      ((gpioIrqSystem.exec .start [.enable 15, .edge 15, .handler]).map fun s =>
        s.pr.getLsbD 15 && s.imr.getLsbD 15) = some true ∧
      ((gpioIrqSystem.exec .start [.enable 0, .edge 0, .edge 1]).map fun s =>
        s.extiIrqHandler.1) = some [(0, 90), (1, 89)] ∧
      ((gpioIrqSystem.exec .start [.enable 0, .enable 16, .disable 0]).map fun s =>
        (s.owner 0, s.imr.getLsbD 0)) = some (some 16, false) := by
  decide

end LinuxStm32.Mach
