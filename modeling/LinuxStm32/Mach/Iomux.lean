import LinuxStm32.Base.Field
import Mathlib.Logic.Function.Basic

/-!
# Pin configuration

`stm32f2_gpio_config`, `arch/arm/mach-stm32/iomux.c:202–360`, with the registers of the ports and
the clock-enable register. A role is the number the caller passes; the enumerators are the numbers
from 0 on, and any other number takes the `default` branch.
-/

namespace LinuxStm32.Mach

open Base

/-- `struct stm32f2_gpio_regs` without the data and lock registers. -/
structure GpioPort where
  moder : BitVec 32
  otyper : BitVec 32
  ospeedr : BitVec 32
  pupdr : BitVec 32
  afr : Nat → BitVec 32

/-- The ports and `RCC_AHB1ENR`. -/
structure Iomux where
  ahb1enr : BitVec 32
  port : Nat → GpioPort

/-- `struct stm32f2_gpio_dsc`. -/
structure GpioDsc where
  port : Nat
  pin : Nat
  deriving DecidableEq, Repr

/-- `enum stm32f2_gpio_role`, `arch/arm/mach-stm32/iomux.c:130`. -/
inductive GpioRole
  | usart1 | usart2 | usart3 | usart4 | usart5 | usart6 | usart7 | usart8
  | ethernet
  | spi1 | spi2 | spi3 | spi4 | spi5 | spi6
  | i2c1 | i2c2 | i2c3 | i2c4
  | sdio | usbOtg | ltdc | mco | out | in | inPup
  deriving DecidableEq, Repr

/-- The enumerators in order. -/
def GpioRole.all : List GpioRole :=
  [.usart1, .usart2, .usart3, .usart4, .usart5, .usart6, .usart7, .usart8, .ethernet,
    .spi1, .spi2, .spi3, .spi4, .spi5, .spi6, .i2c1, .i2c2, .i2c3, .i2c4,
    .sdio, .usbOtg, .ltdc, .mco, .out, .in, .inPup]

/-- `ARRAY_SIZE(stm32_gpio_base)`: ports A to K. -/
def gpioBaseLen : Nat := 11

/-- `af_val`, `arch/arm/mach-stm32/iomux.c:185`. -/
def afVal : List (BitVec 32) :=
  [0x7, 0x7, 0x7, 0x8, 0x8, 0x8, 0x8, 0x8, 0xb, 0x5, 0x5, 0x6, 0x5, 0x5, 0x5, 0x4, 0x4, 0x4, 0x4,
    0xc, 0xa, 0xe, 0]

/-- The output type, speed and pull resistor of a role. -/
structure IoParams where
  otype : BitVec 32
  ospeed : BitVec 32
  pupd : BitVec 32
  deriving DecidableEq, Repr

/-- `STM32F2_GPIO_OTYPE_PP`, which is also `STM32F7_GPIO_OTYPE_PP`. -/
def otypePp : BitVec 32 := 0

/-- `STM32F2_GPIO_OTYPE_OD`. -/
def otypeOd : BitVec 32 := 1

/-- `STM32F2_GPIO_SPEED_2M`. -/
def speed2m : BitVec 32 := 0

/-- `STM32F2_GPIO_SPEED_50M`. -/
def speed50m : BitVec 32 := 2

/-- `STM32F2_GPIO_SPEED_100M`. -/
def speed100m : BitVec 32 := 3

/-- `STM32F2_GPIO_PUPD_NO`. -/
def pupdNo : BitVec 32 := 0

/-- `STM32F2_GPIO_PUPD_UP`. -/
def pupdUp : BitVec 32 := 1

/-- The `switch` that selects the parameters of a role; `arch/arm/mach-stm32/iomux.c:223–297`. -/
def ioParams : GpioRole → IoParams
  | .usart1 | .usart2 | .usart3 | .usart4 | .usart5 | .usart6 | .usart7 | .usart8
  | .spi1 | .spi2 | .spi3 | .spi4 | .spi5 | .spi6 => ⟨otypePp, speed50m, pupdUp⟩
  | .i2c1 | .i2c2 | .i2c3 | .i2c4 => ⟨otypeOd, speed2m, pupdUp⟩
  | .usbOtg | .ethernet | .mco => ⟨otypePp, speed100m, pupdNo⟩
  | .sdio => ⟨otypePp, speed50m, pupdUp⟩
  | .ltdc => ⟨otypePp, speed50m, pupdNo⟩
  | .out => ⟨otypePp, speed50m, pupdNo⟩
  | .in => ⟨otypePp, speed50m, pupdNo⟩
  | .inPup => ⟨otypePp, speed50m, pupdUp⟩

/-- `STM32F2_GPIO_MODE_AF`. -/
def modeAf : BitVec 32 := 2

/-- The mode of a role; `arch/arm/mach-stm32/iomux.c:329–340`. -/
def ioMode : GpioRole → BitVec 32
  | .out => 1
  | .in => 0
  | .inPup => 0
  | _ => modeAf

/-- The roles whose controller is connected through the alternate function register. -/
def GpioRole.connects (role : GpioRole) : Bool :=
  role != .mco && role != .out && role != .in && role != .inPup

/-- The pin's fields of a port are set for a role. -/
def GpioPort.config (p : GpioPort) (pin role : Nat) (r : GpioRole) : GpioPort where
  afr := if r.connects then
      Function.update p.afr (pin / 8) (setField (p.afr (pin / 8)) (pin % 8 * 4) 4
        (afVal.getD role 0))
    else p.afr
  otyper := setField p.otyper pin 1 (ioParams r).otype
  moder := setField p.moder (pin * 2) 2 (ioMode r)
  ospeedr := setField p.ospeedr (pin * 2) 2 (ioParams r).ospeed
  pupdr := setField p.pupdr (pin * 2) 2 (ioParams r).pupd

/-- The port's clock is enabled and the pin's fields are set. -/
def Iomux.configure (g : Iomux) (d : GpioDsc) (role : Nat) (r : GpioRole) : Iomux where
  ahb1enr := setBit g.ahb1enr d.port
  port := Function.update g.port d.port ((g.port d.port).config d.pin role r)

/-- `stm32f2_gpio_config`, `arch/arm/mach-stm32/iomux.c:202`; `none` is a null descriptor. -/
def gpioConfig (g : Iomux) (dsc : Option GpioDsc) (role : Nat) : Int × Iomux :=
  match dsc with
  | none => (-22, g)
  | some d =>
    if gpioBaseLen ≤ d.port ∨ 15 < d.pin then (-22, g)
    else
      match GpioRole.all[role]? with
      | none => (-22, g)
      | some r => (0, g.configure d role r)

/-! ### One port -/

/-- Every value fits into its field. -/
private theorem ioParams_fits (r : GpioRole) : (ioParams r).otype.toNat < 2 ^ 1 ∧
    (ioParams r).ospeed.toNat < 2 ^ 2 ∧ (ioParams r).pupd.toNat < 2 ^ 2 ∧
    (ioMode r).toNat < 2 ^ 2 := by
  cases r <;> decide

private theorem afVal_fits (role : Nat) : (afVal.getD role 0).toNat < 2 ^ 4 := by
  have hall : ∀ v ∈ afVal, v.toNat < 2 ^ 4 := by simp [afVal]
  rw [List.getD_eq_getElem?_getD]
  cases h : afVal[role]? with
  | none => decide
  | some v => exact hall v (List.mem_of_getElem? h)

/-- Only bits of the fields of `pin` differ. -/
structure GpioPort.SameBut (pin : Nat) (p p' : GpioPort) : Prop where
  moder : ∀ i, ¬ InField (pin * 2) 2 i → p'.moder.getLsbD i = p.moder.getLsbD i
  otyper : ∀ i, ¬ InField pin 1 i → p'.otyper.getLsbD i = p.otyper.getLsbD i
  ospeedr : ∀ i, ¬ InField (pin * 2) 2 i → p'.ospeedr.getLsbD i = p.ospeedr.getLsbD i
  pupdr : ∀ i, ¬ InField (pin * 2) 2 i → p'.pupdr.getLsbD i = p.pupdr.getLsbD i
  afr : ∀ n i, ¬ (n = pin / 8 ∧ InField (pin % 8 * 4) 4 i) →
    (p'.afr n).getLsbD i = (p.afr n).getLsbD i

theorem GpioPort.config_sameBut (p : GpioPort) (pin role : Nat) (r : GpioRole) :
    p.SameBut pin (p.config pin role r) := by
  obtain ⟨hotype, hospeed, hpupd, hmode⟩ := ioParams_fits r
  constructor
  · intro i hi
    exact setField_bit_of_not hmode hi
  · intro i hi
    exact setField_bit_of_not hotype hi
  · intro i hi
    exact setField_bit_of_not hospeed hi
  · intro i hi
    exact setField_bit_of_not hpupd hi
  · intro n i hi
    simp only [config]
    split
    next =>
      by_cases hn : n = pin / 8
      · rw [hn, Function.update_self]
        exact setField_bit_of_not (afVal_fits role) fun h => hi ⟨hn, h⟩
      · rw [Function.update_of_ne hn]
    next => rfl

private theorem afr_comm {afr : Nat → BitVec 32} {pin pin' : Nat} (hne : pin ≠ pin')
    {v v' : BitVec 32} (hv : v.toNat < 2 ^ 4) (hv' : v'.toNat < 2 ^ 4) :
    Function.update (Function.update afr (pin / 8) (setField (afr (pin / 8)) (pin % 8 * 4) 4 v))
        (pin' / 8) (setField (Function.update afr (pin / 8)
          (setField (afr (pin / 8)) (pin % 8 * 4) 4 v) (pin' / 8)) (pin' % 8 * 4) 4 v') =
      Function.update (Function.update afr (pin' / 8)
          (setField (afr (pin' / 8)) (pin' % 8 * 4) 4 v'))
        (pin / 8) (setField (Function.update afr (pin' / 8)
          (setField (afr (pin' / 8)) (pin' % 8 * 4) 4 v') (pin / 8)) (pin % 8 * 4) 4 v) := by
  by_cases h : pin / 8 = pin' / 8
  · rw [h]
    simp only [Function.update_self, Function.update_idem]
    rw [setField_comm hv hv' (by omega)]
  · rw [Function.update_of_ne (Ne.symm h), Function.update_of_ne h, Function.update_comm h]

/-- Different pins of one port can be configured in either order. -/
theorem GpioPort.config_comm (p : GpioPort) {pin pin' : Nat} (hne : pin ≠ pin') (role role' : Nat)
    (r r' : GpioRole) :
    (p.config pin role r).config pin' role' r' = (p.config pin' role' r').config pin role r := by
  obtain ⟨hotype, hospeed, hpupd, hmode⟩ := ioParams_fits r
  obtain ⟨hotype', hospeed', hpupd', hmode'⟩ := ioParams_fits r'
  simp only [config, GpioPort.mk.injEq]
  refine ⟨?_, ?_, ?_, ?_, ?_⟩
  · exact setField_comm hmode hmode' (by omega)
  · exact setField_comm hotype hotype' (by omega)
  · exact setField_comm hospeed hospeed' (by omega)
  · exact setField_comm hpupd hpupd' (by omega)
  · cases r.connects <;> cases r'.connects
    · rfl
    · rfl
    · rfl
    · exact afr_comm hne (afVal_fits role) (afVal_fits role')

/-! ### The settings of a pin -/

/-- The settings of a pin that are in effect: the alternate function is one of them in alternate
function mode only. -/
structure PinSettings where
  mode : BitVec 32
  otype : BitVec 32
  ospeed : BitVec 32
  pupd : BitVec 32
  af : Option (BitVec 32)
  deriving DecidableEq, Repr

/-- The alternate function a pin is set to. -/
def GpioPort.af (p : GpioPort) (pin : Nat) : BitVec 32 :=
  getField (p.afr (pin / 8)) (pin % 8 * 4) 4

/-- What the registers of a port say about a pin. -/
def GpioPort.inEffect (p : GpioPort) (pin : Nat) : PinSettings where
  mode := getField p.moder (pin * 2) 2
  otype := getField p.otyper pin 1
  ospeed := getField p.ospeedr (pin * 2) 2
  pupd := getField p.pupdr (pin * 2) 2
  af := if getField p.moder (pin * 2) 2 = modeAf then some (p.af pin) else none

/-- What a role says about its pin. -/
def roleSettings (role : Nat) (r : GpioRole) : PinSettings where
  mode := ioMode r
  otype := (ioParams r).otype
  ospeed := (ioParams r).ospeed
  pupd := (ioParams r).pupd
  af := if ioMode r = modeAf then some (afVal.getD role 0) else none

/-- Another pin's settings do not change. -/
theorem GpioPort.SameBut.inEffect {p p' : GpioPort} {pin pin' : Nat} (h : p.SameBut pin p')
    (hne : pin' ≠ pin) : p'.inEffect pin' = p.inEffect pin' := by
  have hmode : getField p'.moder (pin' * 2) 2 = getField p.moder (pin' * 2) 2 := by
    apply getField_congr
    intro i hi
    apply h.moder
    simp only [InField] at hi ⊢
    omega
  have haf : p'.af pin' = p.af pin' := by
    apply getField_congr
    intro i hi
    apply h.afr
    simp only [InField] at hi ⊢
    omega
  simp only [GpioPort.inEffect, PinSettings.mk.injEq, hmode, haf, true_and, and_true]
  refine ⟨?_, ?_, ?_⟩
  · apply getField_congr
    intro i hi
    apply h.otyper
    simp only [InField] at hi ⊢
    omega
  · apply getField_congr
    intro i hi
    apply h.ospeedr
    simp only [InField] at hi ⊢
    omega
  · apply getField_congr
    intro i hi
    apply h.pupdr
    simp only [InField] at hi ⊢
    omega

/-- A configured pin has the settings of its role, except that an `MCO` pin keeps the alternate
function it had. -/
theorem GpioPort.config_inEffect (p : GpioPort) {pin role : Nat} {r : GpioRole} (hpin : pin ≤ 15)
    (hr : GpioRole.all[role]? = some r) :
    (p.config pin role r).inEffect pin = roleSettings role r ↔ r ≠ .mco ∨ p.af pin = 0 := by
  obtain ⟨hotype, hospeed, hpupd, hmode⟩ := ioParams_fits r
  have hmoder : getField (p.config pin role r).moder (pin * 2) 2 = ioMode r :=
    getField_setField (by omega) hmode
  have haf : (p.config pin role r).af pin =
      if r.connects then afVal.getD role 0 else p.af pin := by
    simp only [GpioPort.af, config]
    split
    next =>
      rw [Function.update_self]
      exact getField_setField (by omega) (afVal_fits role)
    next => rfl
  have hsettings : (p.config pin role r).inEffect pin = roleSettings role r ↔
      (ioMode r = modeAf → (if r.connects then afVal.getD role 0 else p.af pin) =
        afVal.getD role 0) := by
    simp only [GpioPort.inEffect, roleSettings, PinSettings.mk.injEq, hmoder, haf]
    constructor
    · intro h hm
      have haf := h.2.2.2.2
      rw [if_pos hm, if_pos hm] at haf
      exact Option.some.inj haf
    · intro h
      refine ⟨trivial, getField_setField (by omega) hotype, getField_setField (by omega) hospeed,
        getField_setField (by omega) hpupd, ?_⟩
      by_cases hm : ioMode r = modeAf
      · rw [if_pos hm, if_pos hm, h hm]
      · rw [if_neg hm, if_neg hm]
  rw [hsettings]
  by_cases hmco : r = .mco
  · -- The only role in alternate function mode that does not set the function.
    have hrole : afVal.getD role 0 = 0 := by
      rw [hmco] at hr
      have hall : ∀ n < 26, GpioRole.all[n]? = some .mco → afVal.getD n 0 = 0 := by decide +kernel
      exact hall role (List.getElem?_eq_some_iff.mp hr).1 hr
    have hc : GpioRole.mco.connects = false := by decide
    have hm : ioMode .mco = modeAf := rfl
    rw [hrole, hmco, hc, hm, if_neg Bool.false_ne_true]
    constructor
    · intro h
      exact .inr (h rfl)
    · intro h _
      exact h.resolve_left (fun hne => hne rfl)
  · constructor
    · intro _
      exact .inl hmco
    · intro _ hm
      have hc : r.connects = true := by
        cases r <;> first | rfl | exact absurd hm (by decide) | exact absurd rfl hmco
      rw [if_pos hc]

/-! ### Calls -/

/-- A call of `stm32f2_gpio_config`. -/
structure GpioCall where
  dsc : Option GpioDsc
  role : Nat

/-- The call has no descriptor, a bad port or pin, or no role. -/
def GpioCall.Invalid (c : GpioCall) : Prop :=
  (∀ d, c.dsc = some d → gpioBaseLen ≤ d.port ∨ 15 < d.pin) ∨ GpioRole.all.length ≤ c.role

/-- The registers after calls in order. -/
def Iomux.run (g : Iomux) (calls : List GpioCall) : Iomux :=
  calls.foldl (fun g c => (gpioConfig g c.dsc c.role).2) g

/-- Only the fields of a pin and the clock-enable bit of its port differ. -/
structure Iomux.SameBut (d : GpioDsc) (g g' : Iomux) : Prop where
  ahb1enr : ∀ i, i ≠ d.port → g'.ahb1enr.getLsbD i = g.ahb1enr.getLsbD i
  port : ∀ n, n ≠ d.port → g'.port n = g.port n
  pin : (g.port d.port).SameBut d.pin (g'.port d.port)

/-- What a call does: nothing, or it configures a pin. -/
inductive GpioCase (c : GpioCall) : Prop
  | refused (h : c.Invalid) (he : ∀ g, gpioConfig g c.dsc c.role = (-22, g))
  | done (d : GpioDsc) (r : GpioRole) (hd : c.dsc = some d) (hport : d.port < gpioBaseLen)
      (hpin : d.pin ≤ 15) (hr : GpioRole.all[c.role]? = some r)
      (he : ∀ g, gpioConfig g c.dsc c.role = (0, g.configure d c.role r))

theorem gpioConfig_case (c : GpioCall) : GpioCase c := by
  cases hd : c.dsc with
  | none =>
    apply GpioCase.refused
    · left
      intro d hd'
      rw [hd] at hd'
      cases hd'
    · intro g
      rw [hd, gpioConfig]
  | some d =>
    by_cases hbad : gpioBaseLen ≤ d.port ∨ 15 < d.pin
    · apply GpioCase.refused
      · left
        intro d' hd'
        rw [hd] at hd'
        cases hd'
        exact hbad
      · intro g
        simp only [hd, gpioConfig, if_pos hbad]
    · cases hr : GpioRole.all[c.role]? with
      | none =>
        apply GpioCase.refused
        · right
          exact List.getElem?_eq_none_iff.mp hr
        · intro g
          simp only [hd, gpioConfig, if_neg hbad, hr]
      | some r =>
        apply GpioCase.done d r hd (by omega) (by omega) hr
        intro g
        simp only [hd, gpioConfig, if_neg hbad, hr]

theorem Iomux.SameBut.refl (d : GpioDsc) (g : Iomux) : g.SameBut d g :=
  ⟨fun _ _ => rfl, fun _ _ => rfl, fun _ _ => rfl, fun _ _ => rfl, fun _ _ => rfl, fun _ _ => rfl,
    fun _ _ _ => rfl⟩

theorem Iomux.configure_sameBut (g : Iomux) (d : GpioDsc) (role : Nat) (r : GpioRole) :
    g.SameBut d (g.configure d role r) := by
  constructor
  · intro i hi
    exact setBit_bit_of_ne (Ne.symm hi)
  · intro n hn
    exact Function.update_of_ne hn _ _
  · simp only [configure, Function.update_self]
    exact GpioPort.config_sameBut _ _ _ _

theorem gpioConfig_sameBut (g : Iomux) {c : GpioCall} {d : GpioDsc} (hd : c.dsc = some d) :
    g.SameBut d (gpioConfig g c.dsc c.role).2 := by
  cases gpioConfig_case c with
  | refused _ he =>
    rw [he]
    exact .refl d g
  | done d' r hd' _ _ _ he =>
    rw [he]
    obtain rfl : d = d' := Option.some.inj (hd.symm.trans hd')
    exact g.configure_sameBut d c.role r

/-- Different pins can be configured in either order. -/
theorem Iomux.configure_comm (g : Iomux) {d d' : GpioDsc} (hne : d ≠ d') (role role' : Nat)
    (r r' : GpioRole) :
    (g.configure d role r).configure d' role' r' =
      (g.configure d' role' r').configure d role r := by
  simp only [configure, Iomux.mk.injEq]
  constructor
  · rw [setBit, setBit, setBit, setBit, BitVec.or_assoc, BitVec.or_assoc,
      BitVec.or_comm (1#32 <<< d.port)]
  · by_cases hport : d.port = d'.port
    · have hpin : d.pin ≠ d'.pin := by
        intro hpin
        apply hne
        cases d
        cases d'
        simp only at hport hpin
        rw [hport, hpin]
      rw [hport]
      simp only [Function.update_self, Function.update_idem]
      rw [GpioPort.config_comm _ hpin]
    · rw [Function.update_of_ne (Ne.symm hport), Function.update_of_ne hport,
        Function.update_comm hport]

theorem gpioConfig_comm (g : Iomux) {c c' : GpioCall} (hne : c.dsc ≠ c'.dsc) :
    (gpioConfig (gpioConfig g c.dsc c.role).2 c'.dsc c'.role).2 =
      (gpioConfig (gpioConfig g c'.dsc c'.role).2 c.dsc c.role).2 := by
  cases gpioConfig_case c with
  | refused _ he => simp only [he]
  | done d r hd _ _ _ he =>
    cases gpioConfig_case c' with
    | refused _ he' => simp only [he']
    | done d' r' hd' _ _ _ he' =>
      simp only [he, he']
      apply g.configure_comm
      rintro rfl
      exact hne (hd.trans hd'.symm)

/-- A pin keeps its settings while others are configured. -/
theorem run_inEffect {d : GpioDsc} {later : List GpioCall} (hother : ∀ c ∈ later, c.dsc ≠ some d)
    (g : Iomux) : ((g.run later).port d.port).inEffect d.pin = (g.port d.port).inEffect d.pin := by
  induction later generalizing g with
  | nil => rfl
  | cons c later ih =>
    rw [Iomux.run, List.foldl_cons]
    refine (ih (fun c' hc' => hother c' (List.mem_cons_of_mem _ hc')) _).trans ?_
    cases gpioConfig_case c with
    | refused _ he => rw [he]
    | done d' r hd' _ _ _ he =>
      rw [he]
      have hsame := g.configure_sameBut d' c.role r
      by_cases hport : d.port = d'.port
      · rw [hport]
        apply hsame.pin.inEffect
        intro hpin
        apply hother c List.mem_cons_self
        rw [hd']
        cases d
        cases d'
        simp only at hport hpin
        rw [hport, hpin]
      · rw [hsame.port _ hport]

/-- A call changes nothing, or only its pin's fields and the clock-enable bit of the port; calls for
different pins commute. The settings of a pin are those of its last role exactly if this role is
not `MCO` or the pin's alternate function was 0. The registers may hold anything before. -/
theorem gpio_config_history_free (g : Iomux) (c : GpioCall) :
    (c.Invalid → gpioConfig g c.dsc c.role = (-22, g)) ∧
      (∀ d, c.dsc = some d → g.SameBut d (gpioConfig g c.dsc c.role).2) ∧
      (∀ c' : GpioCall, c.dsc ≠ c'.dsc →
        (gpioConfig (gpioConfig g c.dsc c.role).2 c'.dsc c'.role).2 =
          (gpioConfig (gpioConfig g c'.dsc c'.role).2 c.dsc c.role).2) ∧
      (¬ c.Invalid → ∃ d r, c.dsc = some d ∧ GpioRole.all[c.role]? = some r ∧
        (gpioConfig g c.dsc c.role).1 = 0 ∧
        ∀ later : List GpioCall, (∀ c' ∈ later, c'.dsc ≠ some d) →
          ((((gpioConfig g c.dsc c.role).2.run later).port d.port).inEffect d.pin =
              roleSettings c.role r ↔
            r ≠ .mco ∨ (g.port d.port).af d.pin = 0)) := by
  refine ⟨?_, fun d hd => gpioConfig_sameBut g hd, fun c' hne => gpioConfig_comm g hne, ?_⟩
  · intro hbad
    cases gpioConfig_case c with
    | refused _ he => exact he g
    | done d r hd hport hpin hr _ =>
      rcases hbad with h | h
      · have := h d hd
        omega
      · rw [List.getElem?_eq_none h] at hr
        cases hr
  · intro hgood
    cases gpioConfig_case c with
    | refused h _ => exact absurd h hgood
    | done d r hd _ hpin hr he =>
      refine ⟨d, r, hd, hr, by rw [he], fun later hother => ?_⟩
      rw [run_inEffect hother, he, ← (g.port d.port).config_inEffect hpin hr]
      simp only [Iomux.configure, Function.update_self]

/-- All registers are 0. -/
def Iomux.zero : Iomux := ⟨0#32, fun _ => ⟨0#32, 0#32, 0#32, 0#32, fun _ => 0#32⟩⟩

/-- `PG13` is configured for the Ethernet MAC, then `PG12` for the display. -/
theorem gpio_config_display_beside_ethernet :
    ((Iomux.zero.run [⟨some ⟨6, 13⟩, 8⟩, ⟨some ⟨6, 12⟩, 21⟩]).port 6).inEffect 13 =
      roleSettings 8 .ethernet := by
  have hvalid : ¬ GpioCall.Invalid ⟨some ⟨6, 13⟩, 8⟩ := by
    rintro (h | h)
    · exact absurd (h _ rfl) (by decide)
    · exact absurd h (by decide)
  obtain ⟨d, r, hd, hr, _, h⟩ :=
    (gpio_config_history_free .zero ⟨some ⟨6, 13⟩, 8⟩).2.2.2 hvalid
  obtain rfl : ⟨6, 13⟩ = d := Option.some.inj hd
  obtain rfl : .ethernet = r := Option.some.inj hr
  exact (h [⟨some ⟨6, 12⟩, 21⟩] (by decide)).mpr (.inl (by decide))

/-- A pin that was one of the display's is configured as `MCO`: it stays connected to the
display. -/
theorem gpio_config_mco_keeps_function :
    (((Iomux.zero.run [⟨some ⟨0, 8⟩, 21⟩, ⟨some ⟨0, 8⟩, 22⟩]).port 0).inEffect 8).af =
        some 0xe#32 ∧
      (((Iomux.zero.run [⟨some ⟨0, 8⟩, 22⟩]).port 0).inEffect 8).af = some 0#32 := by
  decide

end LinuxStm32.Mach
