import LinuxStm32.Base.System
import LinuxStm32.Base.Word
import Mathlib.Logic.Function.Basic

/-!
# The clock driver on the STM32F7

Model of `arch/arm/mach-stm32/clock.c:137–760` with `CONFIG_ARCH_STM32F7`: the registered clocks
with their reference counts, the registers of the clock controller and `stm32_clock_init`. Each
call runs under `clocks_lock`. Frequencies are words in Hz. A division by 0 gives 0, as the
processor's does; the wait for `PLLSAIRDY` is left out.

`PLLSAI` gets its input from the oscillator that the main PLL uses, divided by `PLLM`; its `P`
output is the 48 MHz clock of USB OTG FS and of the SD card interface while `CK48MSEL` is set.
-/

namespace LinuxStm32.Mach

open Base

/-- The registers of the clock controller that the driver uses. -/
structure Rcc where
  cr : BitVec 32
  pllcfgr : BitVec 32
  cfgr : BitVec 32
  ahb1enr : BitVec 32
  apb2enr : BitVec 32
  pllsaicfgr : BitVec 32
  dckcfgr : BitVec 32
  dckcfgr2 : BitVec 32
  deriving DecidableEq, Repr

/-- `RCC_CR_PLLSAION`. -/
def crPllsaion : BitVec 32 := 1#32 <<< 28

/-- `RCC_DCKCFGR_PLLSAIDIVR`. -/
def dckcfgrPllsaidivr : BitVec 32 := 3#32 <<< 16

/-- `STM32F7_PLLSAI_DIVR`: division by 8. -/
def pllsaiDivR : BitVec 32 := 2#32 <<< 16

/-- `RCC_DCKCFGR2_CK48MSEL`. -/
def dckcfgr2Ck48msel : BitVec 32 := 1#32 <<< 27

/-- `STM32F7_PLLSAI_VCO_HZ`. -/
def pllsaiVcoHz : Nat := 288000000

/-- `STM32F7_CK48_HZ`. -/
def ck48Hz : Nat := 48000000

/-- `enum stm32_clock`. -/
structure ClockVal where
  sysclk : Nat
  hclk : Nat
  pclk1 : Nat
  pclk2 : Nat
  ptmr1 : Nat
  ptmr2 : Nat
  divm : Nat
  deriving DecidableEq, Repr

/-! ### Clocks -/

/-- The registered clocks, `stm32_clkregs`. -/
inductive ClkId
  | mci
  | ltdc
  | saiR
  | gpioa
  | gpiob
  | gpioc
  | gpiod
  | gpioe
  | gpiof
  | gpiog
  | gpioh
  | gpioi
  | gpioj
  | gpiok
  deriving DecidableEq, Repr

/-- The functions of `struct clk`, `arch/arm/mach-stm32/clock.c:142`; they may use
`clock_val[CLOCK_DIVM]`. -/
structure ClkOps where
  clkEnable : Nat → Rcc → Rcc
  clkDisable : Rcc → Rcc
  /-- Whether there is a `clk_set_rate`. -/
  clkSetRate : Bool

/-- The rate and the reference count of `struct clk`. -/
structure Clk where
  rate : Nat
  enabled : Nat
  deriving DecidableEq, Repr

/-- A clock with a bit in `RCC_APB2ENR`. -/
def apb2Clk (bit : Nat) : ClkOps where
  clkEnable _ r := { r with apb2enr := r.apb2enr ||| (1#32 <<< bit) }
  clkDisable r := { r with apb2enr := r.apb2enr &&& ~~~(1#32 <<< bit) }
  clkSetRate := false

/-- A clock with a bit in `RCC_AHB1ENR`. -/
def gpioClk (bit : Nat) : ClkOps where
  clkEnable _ r := { r with ahb1enr := r.ahb1enr ||| (1#32 <<< bit) }
  clkDisable r := { r with ahb1enr := r.ahb1enr &&& ~~~(1#32 <<< bit) }
  clkSetRate := false

/-- `sai_r_clk_disable`, `arch/arm/mach-stm32/clock.c:292`. -/
def saiRClkDisable (r : Rcc) : Rcc := { r with cr := r.cr &&& ~~~crPllsaion }

/-- The configuration of `PLLSAI`: `N`, `P` = 6, `Q` = 7 and `R` = 4. -/
def pllsaiConfig (parentRate : Nat) : BitVec 32 :=
  (BitVec.ofNat 32 (pllsaiVcoHz / parentRate) <<< 6) ||| (2#32 <<< 16) ||| (7#32 <<< 24) |||
    (4#32 <<< 28)

/-- `sai_r_clk_enable`, `arch/arm/mach-stm32/clock.c:300`: nothing is done if `PLLSAI` runs with
this configuration. -/
def saiRClkEnable (parentRate : Nat) (r : Rcc) : Rcc :=
  if r.cr &&& crPllsaion ≠ 0#32 ∧ r.pllsaicfgr = pllsaiConfig parentRate ∧
      r.dckcfgr &&& dckcfgrPllsaidivr = pllsaiDivR then r
  else
    let r := saiRClkDisable r
    { r with
      pllsaicfgr := pllsaiConfig parentRate
      dckcfgr := (r.dckcfgr &&& ~~~dckcfgrPllsaidivr) ||| pllsaiDivR
      cr := r.cr ||| crPllsaion }

/-- `clk_sai_r`, `arch/arm/mach-stm32/clock.c:382`. -/
def clkSaiR : ClkOps := ⟨saiRClkEnable, saiRClkDisable, true⟩

/-- The clocks of `arch/arm/mach-stm32/clock.c:235–539`. -/
def ClkId.ops : ClkId → ClkOps
  | .mci => apb2Clk 11
  | .ltdc => apb2Clk 26
  | .saiR => clkSaiR
  | .gpioa => gpioClk 0
  | .gpiob => gpioClk 1
  | .gpioc => gpioClk 2
  | .gpiod => gpioClk 3
  | .gpioe => gpioClk 4
  | .gpiof => gpioClk 5
  | .gpiog => gpioClk 6
  | .gpioh => gpioClk 7
  | .gpioi => gpioClk 8
  | .gpioj => gpioClk 9
  | .gpiok => gpioClk 10

/-- The state of the driver. -/
structure Clocks where
  rcc : Rcc
  clockVal : ClockVal
  clk : ClkId → Clk

namespace Clocks

variable (s : Clocks)

/-- `clk_enable`, `arch/arm/mach-stm32/clock.c:160`. -/
def clkEnable (c : ClkId) : Clocks :=
  let k := s.clk c
  { s with
    rcc := if k.enabled = 0 then c.ops.clkEnable s.clockVal.divm s.rcc else s.rcc
    clk := Function.update s.clk c { k with enabled := wadd k.enabled 1 } }

/-- `clk_disable`, `arch/arm/mach-stm32/clock.c:176`. -/
def clkDisable (c : ClkId) : Clocks :=
  let k := { s.clk c with enabled := wsub (s.clk c).enabled 1 }
  { s with
    rcc := if k.enabled = 0 then c.ops.clkDisable s.rcc else s.rcc
    clk := Function.update s.clk c k }

/-- `clk_set_rate`, `arch/arm/mach-stm32/clock.c:201`, and `sai_r_clk_set_rate`. -/
def clkSetRate (c : ClkId) (rate : Nat) : Int × Clocks :=
  if c.ops.clkSetRate then
    (0, { s with clk := Function.update s.clk c { s.clk c with rate := rate } })
  else (-22, s)

/-- `clk_get_rate`. -/
def clkGetRate (c : ClkId) : Nat := (s.clk c).rate

end Clocks

/-! ### Initialisation -/

/-- What `stm32_platform_get` returns. -/
inductive Platform
  | stm3220gEval
  | stm3240gEval
  | stmSom
  | stm32f439Som
  | stm32f7Som
  | stm32f7Disco
  | stmDisco
  | other
  deriving DecidableEq, Repr

/-- The external oscillator, `arch/arm/mach-stm32/clock.c:590–622`. -/
def Platform.hseHz : Platform → Nat
  | .stm3220gEval | .stm3240gEval => 25000000
  | .stmSom | .stm32f439Som | .stm32f7Som => 12000000
  | .stm32f7Disco => 25000000
  | .stmDisco => 8000000
  | .other => 25000000

/-- `STM32_HSI_HZ`. -/
def hsiHz : Nat := 16000000

/-- A field of a register. -/
def field (w : BitVec 32) (bit msk : Nat) : Nat := ((w >>> bit) &&& BitVec.ofNat 32 msk).toNat

/-- `apbahb_presc_tbl`. -/
def apbahbPrescTbl : List Nat := [0, 0, 0, 0, 1, 2, 3, 4, 1, 2, 3, 4, 6, 7, 8, 9]

namespace Rcc

variable (r : Rcc)

/-- Which clock is the system clock. -/
def sws : Nat := field r.cfgr 2 0x3

/-- The divider of the input of the PLLs. -/
def pllm : Nat := field r.pllcfgr 0 0x3F

/-- The oscillator the PLLs use. -/
def pllSrc (hse : Nat) : Nat := if r.pllcfgr.getLsbD 22 then hse else hsiHz

/-- `clock_val[CLOCK_DIVM]`: only set if the system clock comes from the PLL. -/
def divm (hse : Nat) : Nat := if r.sws = 2 then r.pllSrc hse / r.pllm else 0

/-- The frequency of the main PLL before its dividers, 0 if it is not used. -/
def pllvco (hse : Nat) : Nat :=
  if r.sws = 2 then wmul (field r.pllcfgr 6 0x1FF) (r.divm hse) else 0

/-- The prescaled clock of a bus. -/
def presc (clock bit msk : Nat) : Nat := clock >>> apbahbPrescTbl.getD (field r.cfgr bit msk) 0

/-- The clock of the timers on a bus: doubled if the bus is prescaled. -/
def ptmr (pclk bit : Nat) : Nat := if field r.cfgr bit 0x7 = 0 then pclk else wmul pclk 2

/-- The clock values, `arch/arm/mach-stm32/clock.c:630–727`. -/
def clockVal (hse : Nat) : ClockVal :=
  let sysclk := match r.sws with
    | 1 => hse
    | 2 => r.pllvco hse / ((field r.pllcfgr 16 0x3 + 1) * 2)
    | _ => hsiHz
  let hclk := r.presc sysclk 4 0xF
  let pclk1 := r.presc hclk 10 0x7
  let pclk2 := r.presc hclk 13 0x7
  ⟨sysclk, hclk, pclk1, pclk2, r.ptmr pclk1 10, r.ptmr pclk2 13, r.divm hse⟩

end Rcc

/-- `stm32_clock_init`, `arch/arm/mach-stm32/clock.c:568`. -/
def stm32ClockInit (p : Platform) (r : Rcc) : Clocks :=
  let v := r.clockVal p.hseHz
  -- `clk_mci` first gets the `Q` output of the main PLL.
  let mci := if r.pllvco p.hseHz ≠ 0 then r.pllvco p.hseHz / field r.pllcfgr 24 0xF else 0
  let clk : ClkId → Clk := fun
    | .mci => ⟨mci, 0⟩
    | .saiR => ⟨9000000, 0⟩
    | _ => ⟨0, 0⟩
  let r := saiRClkEnable v.divm r
  { rcc := { r with dckcfgr2 := r.dckcfgr2 ||| dckcfgr2Ck48msel }
    clockVal := v
    clk := Function.update clk .mci { clk .mci with rate := ck48Hz } }

/-- A call of the clock interface. -/
inductive ClkCall
  | enable (c : ClkId)
  | disable (c : ClkId)
  | setRate (c : ClkId) (rate : Nat)
  deriving DecidableEq, Repr

/-- One call. -/
def clocksStep (s : Clocks) : ClkCall → Option Clocks
  | .enable c => some (s.clkEnable c)
  | .disable c => some (s.clkDisable c)
  | .setRate c rate => some (s.clkSetRate c rate).2

/-- All sequences of calls after `stm32_clock_init`. -/
def clockSystem (p : Platform) (r : Rcc) : System Clocks ClkCall where
  init := (· = stm32ClockInit p r)
  step := clocksStep

/-! ### The 48 MHz clock -/

/-- The multiplier of `PLLSAI`. -/
def Rcc.pllsaiN (r : Rcc) : Nat := field r.pllsaicfgr 6 0x1FF

/-- The divider of the `P` output of `PLLSAI`. -/
def Rcc.pllsaiP (r : Rcc) : Nat := (field r.pllsaicfgr 16 0x3 + 1) * 2

/-- `PLLSAI` runs, its `P` output is selected, and it is the 48 MHz clock reported for
`clk_mci`: `pllSrc / pllm * N / P`. -/
structure Clocks.Ck48Up (p : Platform) (s : Clocks) : Prop where
  on : s.rcc.cr &&& crPllsaion ≠ 0#32
  sel : s.rcc.dckcfgr2 &&& dckcfgr2Ck48msel ≠ 0#32
  input : s.rcc.pllm ≠ 0
  output : s.rcc.pllSrc p.hseHz * s.rcc.pllsaiN = s.clkGetRate .mci * (s.rcc.pllm * s.rcc.pllsaiP)
  rate : s.clkGetRate .mci = ck48Hz

/-- The boot loader left the system clock on the PLL, with an input from which `PLLSAI` can make
288 MHz exactly. -/
def Rcc.Suitable (p : Platform) (r : Rcc) : Prop :=
  r.sws = 2 ∧ r.pllm ≠ 0 ∧ r.pllSrc p.hseHz ∣ pllsaiVcoHz * r.pllm ∧
    pllsaiVcoHz * r.pllm / r.pllSrc p.hseHz < 512

instance (p : Platform) (r : Rcc) : Decidable (r.Suitable p) :=
  inferInstanceAs (Decidable (_ ∧ _ ∧ _ ∧ _))

/-- `clk_disable` does not drop the last reference to `clk_sai_r`. -/
def SaiHeld (s : Clocks) : ClkCall → Prop
  | .disable .saiR => (s.clk .saiR).enabled ≠ 1
  | _ => True

/-- `PLLSAI` as `stm32_clock_init` sets it up. -/
structure Rcc.PllsaiOk (pllcfgr : BitVec 32) (divm : Nat) (r : Rcc) : Prop where
  on : r.cr &&& crPllsaion ≠ 0#32
  config : r.pllsaicfgr = pllsaiConfig divm
  sel : r.dckcfgr2 &&& dckcfgr2Ck48msel ≠ 0#32
  pllcfgr : r.pllcfgr = pllcfgr

/-- What the driver keeps. -/
structure Clocks.PllsaiInv (pllcfgr : BitVec 32) (divm : Nat) (s : Clocks) : Prop where
  rcc : s.rcc.PllsaiOk pllcfgr divm
  divm : s.clockVal.divm = divm
  rate : s.clkGetRate .mci = ck48Hz
  bound : (s.clk .saiR).enabled < 4294967296

private theorem or_and_ne_zero (w : BitVec 32) {m : BitVec 32} (hm : m ≠ 0#32) :
    (w ||| m) &&& m ≠ 0#32 := by
  have h : (w ||| m) &&& m = m := by
    rw [BitVec.and_comm, BitVec.or_comm]
    apply BitVec.eq_of_getLsbD_eq
    intro i _
    rw [BitVec.getLsbD_and, BitVec.getLsbD_or]
    cases m.getLsbD i <;> simp
  rw [h]
  exact hm

/-- After `sai_r_clk_enable` the PLL runs as configured; no other register is written. -/
private theorem saiRClkEnable_spec (divm : Nat) (r : Rcc) :
    (saiRClkEnable divm r).cr &&& crPllsaion ≠ 0#32 ∧
      (saiRClkEnable divm r).pllsaicfgr = pllsaiConfig divm ∧
      (saiRClkEnable divm r).dckcfgr2 = r.dckcfgr2 ∧
      (saiRClkEnable divm r).pllcfgr = r.pllcfgr := by
  rw [saiRClkEnable]
  split
  · next h => exact ⟨h.1, h.2.1, rfl, rfl⟩
  · exact ⟨or_and_ne_zero _ (by decide), rfl, rfl, rfl⟩

/-- The clocks other than `clk_sai_r` only have a bit in an enable register. -/
private theorem ops_frame {c : ClkId} (hc : c ≠ .saiR) (divm : Nat) (r : Rcc) :
    ∃ ahb1 apb2 ahb1' apb2',
      c.ops.clkEnable divm r = { r with ahb1enr := ahb1, apb2enr := apb2 } ∧
      c.ops.clkDisable r = { r with ahb1enr := ahb1', apb2enr := apb2' } := by
  cases c with
  | saiR => exact absurd rfl hc
  | _ => exact ⟨_, _, _, _, rfl, rfl⟩

namespace Clocks

variable {s s' : Clocks} {pllcfgr : BitVec 32} {divm : Nat} {a : ClkCall}

/-- The counters and the rate of another clock do not matter. -/
private theorem PllsaiInv.update (h : s.PllsaiInv pllcfgr divm) {rcc : Rcc}
    (hr : rcc.PllsaiOk pllcfgr divm) (c : ClkId) {k : Clk} (hk : k.enabled < 4294967296 ∨ c ≠ .saiR)
    (hrate : c = .mci → k.rate = (s.clk .mci).rate) :
    ({ s with rcc := rcc, clk := Function.update s.clk c k } : Clocks).PllsaiInv pllcfgr divm := by
  refine ⟨hr, h.divm, ?_, ?_⟩
  · show (Function.update s.clk c k .mci).rate = ck48Hz
    by_cases hc : c = .mci
    · rw [hc, Function.update_self, hrate hc]
      exact h.rate
    · rw [Function.update_of_ne (Ne.symm hc)]
      exact h.rate
  · show (Function.update s.clk c k .saiR).enabled < 4294967296
    by_cases hc : c = .saiR
    · rw [hc, Function.update_self]
      exact hk.resolve_right (not_not.mpr hc)
    · rw [Function.update_of_ne (Ne.symm hc)]
      exact h.bound

private theorem PllsaiInv.enable (h : s.PllsaiInv pllcfgr divm) (c : ClkId) :
    (s.clkEnable c).PllsaiInv pllcfgr divm := by
  refine h.update ?_ c (.inl (wadd_lt _ _)) fun hc => by rw [hc]
  split
  · by_cases hc : c = .saiR
    · rw [hc, h.divm]
      obtain ⟨hon, hcfg, hsel, hpll⟩ := saiRClkEnable_spec divm s.rcc
      exact ⟨hon, hcfg, hsel ▸ h.rcc.sel, hpll.trans h.rcc.pllcfgr⟩
    · obtain ⟨_, _, _, _, he, _⟩ := ops_frame hc s.clockVal.divm s.rcc
      rw [he]
      exact ⟨h.rcc.on, h.rcc.config, h.rcc.sel, h.rcc.pllcfgr⟩
  · exact h.rcc

private theorem wsub_one_eq_zero {x : Nat} (hx : x < 4294967296) (h : wsub x 1 = 0) : x = 1 := by
  rw [wsub] at h
  omega

private theorem PllsaiInv.disable (h : s.PllsaiInv pllcfgr divm) {c : ClkId}
    (ok : SaiHeld s (.disable c)) : (s.clkDisable c).PllsaiInv pllcfgr divm := by
  refine h.update ?_ c (.inl (wsub_lt _ _)) fun hc => by rw [hc]
  split
  · next h0 =>
    by_cases hc : c = .saiR
    · -- The last reference would be dropped.
      subst hc
      exact absurd (wsub_one_eq_zero h.bound h0) ok
    · obtain ⟨_, _, _, _, _, hd⟩ := ops_frame hc s.clockVal.divm s.rcc
      rw [hd]
      exact ⟨h.rcc.on, h.rcc.config, h.rcc.sel, h.rcc.pllcfgr⟩
  · exact h.rcc

/-- A call that keeps a reference to `clk_sai_r` keeps `PLLSAI` as it is. -/
theorem PllsaiInv.step (h : s.PllsaiInv pllcfgr divm) (ok : SaiHeld s a)
    (he : clocksStep s a = some s') : s'.PllsaiInv pllcfgr divm := by
  cases a with
  | enable c =>
    obtain rfl : s.clkEnable c = s' := Option.some.inj he
    exact h.enable c
  | disable c =>
    obtain rfl : s.clkDisable c = s' := Option.some.inj he
    exact h.disable ok
  | setRate c rate =>
    obtain rfl : (s.clkSetRate c rate).2 = s' := Option.some.inj he
    rw [clkSetRate]
    split
    · next hset =>
      have hc : c = .saiR := by
        cases c with
        | saiR => rfl
        | _ => cases hset
      refine h.update h.rcc c (.inl ?_) fun hmci => ?_
      · rw [hc]
        exact h.bound
      · rw [hc] at hmci
        cases hmci
    · exact h

end Clocks

/-- `stm32_clock_init` sets `PLLSAI` up. -/
theorem pllsaiInv_init (p : Platform) (r : Rcc) :
    (stm32ClockInit p r).PllsaiInv r.pllcfgr (r.divm p.hseHz) := by
  obtain ⟨hon, hcfg, _, hpll⟩ := saiRClkEnable_spec (r.divm p.hseHz) r
  refine ⟨⟨hon, hcfg, or_and_ne_zero _ (by decide), hpll⟩, rfl, rfl, ?_⟩
  show 0 < 4294967296
  decide

private theorem field_lt (w : BitVec 32) (bit : Nat) : field w bit 0x3F < 64 := by
  rw [field, BitVec.toNat_and]
  exact Nat.lt_succ_of_le Nat.and_le_right

/-- The values that the oscillators and the divider can have. -/
private theorem config_exact : ∀ src ∈ [25000000, 12000000, 8000000, 16000000], ∀ m < 64, m ≠ 0 →
    (src * field (pllsaiConfig (src / m)) 6 0x1FF =
        ck48Hz * (m * ((field (pllsaiConfig (src / m)) 16 0x3 + 1) * 2)) ↔
      src ∣ pllsaiVcoHz * m ∧ pllsaiVcoHz * m / src < 512) := by
  decide +kernel

private theorem pllSrc_mem (p : Platform) (r : Rcc) :
    r.pllSrc p.hseHz ∈ [25000000, 12000000, 8000000, 16000000] := by
  rw [Rcc.pllSrc]
  split
  · cases p <;> decide
  · decide

/-- With `PLLSAI` as set up, the 48 MHz clock is exact if and only if the boot loader's clocks
allow it. -/
private theorem Clocks.PllsaiInv.ck48Up_iff {p : Platform} {r : Rcc} {s : Clocks}
    (h : s.PllsaiInv r.pllcfgr (r.divm p.hseHz)) : s.Ck48Up p ↔ r.Suitable p := by
  have hm : s.rcc.pllm = r.pllm := by rw [Rcc.pllm, h.rcc.pllcfgr, Rcc.pllm]
  have hsrc : s.rcc.pllSrc p.hseHz = r.pllSrc p.hseHz := by
    rw [Rcc.pllSrc, h.rcc.pllcfgr, Rcc.pllSrc]
  have hout : s.rcc.pllm ≠ 0 ∧
      s.rcc.pllSrc p.hseHz * s.rcc.pllsaiN =
        s.clkGetRate .mci * (s.rcc.pllm * s.rcc.pllsaiP) ↔ r.Suitable p := by
    rw [hm, hsrc, h.rate, Rcc.pllsaiN, Rcc.pllsaiP, h.rcc.config, Rcc.divm, Rcc.Suitable]
    by_cases hsws : r.sws = 2
    · rw [if_pos hsws]
      constructor
      · rintro ⟨hm0, he⟩
        exact ⟨hsws, hm0, (config_exact _ (pllSrc_mem p r) _ (field_lt _ _) hm0).mp he⟩
      · rintro ⟨_, hm0, he⟩
        exact ⟨hm0, (config_exact _ (pllSrc_mem p r) _ (field_lt _ _) hm0).mpr he⟩
    · -- Without the PLL the multiplier is 0.
      rw [if_neg hsws]
      have hn : field (pllsaiConfig 0) 6 0x1FF = 0 := by decide
      have hp : field (pllsaiConfig 0) 16 0x3 = 2 := by decide
      rw [hn, hp]
      constructor
      · rintro ⟨hm0, he⟩
        rw [ck48Hz] at he
        omega
      · rintro ⟨hsws', _⟩
        exact absurd hsws' hsws
  constructor
  · exact fun hup => hout.mp ⟨hup.input, hup.output⟩
  · intro hsuit
    obtain ⟨hin, hrate⟩ := hout.mpr hsuit
    exact ⟨h.rcc.on, h.rcc.sel, hin, hrate, h.rate⟩

/-- Dropping the last reference to `clk_sai_r` switches `PLLSAI` off. -/
private theorem not_ck48Up_of_disable {p : Platform} {s s' : Clocks} {a : ClkCall}
    (h : ¬ SaiHeld s a) (he : clocksStep s a = some s') : ¬ s'.Ck48Up p := by
  intro hup
  apply h
  cases a with
  | disable c =>
    cases c with
    | saiR =>
      intro h1
      obtain rfl : s.clkDisable .saiR = s' := Option.some.inj he
      apply hup.on
      have h0 : wsub (s.clk .saiR).enabled 1 = 0 := by rw [h1, wsub]
      simp only [Clocks.clkDisable, h0, ↓reduceIte]
      show (s.rcc.cr &&& ~~~crPllsaion) &&& crPllsaion = 0#32
      have hc : ~~~crPllsaion &&& crPllsaion = 0#32 := by decide
      rw [BitVec.and_assoc, hc, BitVec.and_zero]
    | _ => trivial
  | _ => trivial

/-- The 48 MHz clock is up after `stm32_clock_init` exactly with suitable boot clocks, and then
stays up in every run that does not drop the last reference to `clk_sai_r`; dropping it switches
the clock off. -/
theorem ck48_stays_up (p : Platform) (r : Rcc) :
    ((stm32ClockInit p r).Ck48Up p ↔ r.Suitable p) ∧
      (r.Suitable p → ∀ s, (clockSystem p r).Reach SaiHeld s → s.Ck48Up p) ∧
      ∀ s a s', (clockSystem p r).step s a = some s' → ¬ SaiHeld s a → ¬ s'.Ck48Up p := by
  refine ⟨(pllsaiInv_init p r).ck48Up_iff, fun hsuit s h => ?_, fun s a s' he hnot => ?_⟩
  · have hinv : s.PllsaiInv r.pllcfgr (r.divm p.hseHz) := by
      refine @System.Reach.invariant _ _ _ _ (fun s => s.PllsaiInv r.pllcfgr (r.divm p.hseHz))
        ?_ ?_ s h
      · rintro _ rfl
        exact pllsaiInv_init p r
      · exact fun _ _ _ hi ok he => hi.step ok he
    exact hinv.ck48Up_iff.mpr hsuit
  · exact not_ck48Up_of_disable hnot he

/-- The registers on the STM32F7 Discovery board: 25 MHz oscillator, `PLLM` = 25, `PLLN` = 400,
`PLLP` = 2, `PLLQ` = 8. -/
def discoRcc : Rcc := ⟨0#32, 0x08406419#32, 0x0000940A#32, 0#32, 0#32, 0#32, 0#32, 0#32⟩

/-- The clock stays up while the display is switched on a second time and off once. -/
theorem ck48_stays_up_disco :
    ∃ s : Clocks, s.Ck48Up .stm32f7Disco ∧ (s.clk .saiR).enabled = 1 := by
  have held : (clockSystem .stm32f7Disco discoRcc).Reach SaiHeld _ :=
    System.reach_of_exec [.enable .saiR, .enable .saiR, .setRate .saiR 9000000]
      (.init rfl) (by simp [SaiHeld]) rfl
  have again : (clockSystem .stm32f7Disco discoRcc).Reach SaiHeld _ :=
    held.step (a := .disable .saiR) (fun h => absurd h (by decide)) rfl
  exact ⟨_, (ck48_stays_up .stm32f7Disco discoRcc).2.1 (by decide) _ again, rfl⟩

/-- Enabling and disabling `clk_sai_r` once switches the 48 MHz clock off. -/
theorem ck48_switched_off :
    (stm32ClockInit .stm32f7Disco discoRcc).Ck48Up .stm32f7Disco ∧
      ∃ s, (clockSystem .stm32f7Disco discoRcc).exec (stm32ClockInit .stm32f7Disco discoRcc)
          [.enable .saiR, .disable .saiR] = some s ∧
        s.rcc.cr &&& crPllsaion = 0#32 ∧ s.clkGetRate .mci = 48000000 := by
  constructor
  · exact ⟨by decide, by decide, by decide, by decide, by decide⟩
  · exact ⟨_, rfl, by decide, by decide⟩

end LinuxStm32.Mach
