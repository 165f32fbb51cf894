import LinuxStm32.Base.Word

/-!
# The card clock

`mmci_set_clkreg`, `drivers/mmc/host/mmci.c:582–631`, with the variants of lines 530–576 as
built for the STM32F7, and the least frequency that `mmci_probe` reports, line 1348. Of a variant
only what the function reads is kept.
-/

namespace LinuxStm32.Drivers.Mmc

open Base

/-- `struct variant_data`, what the clock needs. -/
structure VariantData where
  clkreg : Nat
  clkregEnable : Nat
  stClkdiv : Bool
  deriving DecidableEq, Repr

/-- `MCI_CLK_ENABLE`. -/
def mciClkEnable : Nat := 0x100

/-- `MCI_CLK_BYPASS`. -/
def mciClkBypass : Nat := 0x400

/-- `MCI_4BIT_BUS`. -/
def mci4bitBus : Nat := 0x800

/-- `MCI_ST_8BIT_BUS`. -/
def mciSt8bitBus : Nat := 0x1000

/-- `variant_ux500`, with `MCI_ST_UX500_HWFCEN`. -/
def variantUx500 : VariantData := ⟨mciClkEnable, 0x4000, true⟩

/-- `ios.bus_width`. -/
inductive BusWidth
  | one
  | four
  | eight
  deriving DecidableEq, Repr

/-- `struct mmci_host`, what the clock needs, and `MMCICLOCK`. -/
structure ClkHost where
  variant : VariantData
  mclk : Nat
  cclk : Nat
  busWidth : BusWidth
  mmciclock : Nat
  deriving DecidableEq, Repr

/-- `DIV_ROUND_UP` of 32-bit words. -/
def divRoundUp (n d : Nat) : Nat := wsub (wadd n d) 1 / d

/-- `if (clk >= 256) clk = 255`. -/
def clampClkdiv (clk : Nat) : Nat := if 256 ≤ clk then 255 else clk

namespace ClkHost

/-- The divider and `cclk` for a rate that is not 0. -/
def divider (h : ClkHost) (desired : Nat) : Nat × Nat :=
  if h.mclk ≤ desired then
    (if h.variant.stClkdiv then h.variant.clkreg else mciClkBypass, h.mclk)
  else if h.variant.stClkdiv then
    let clk := clampClkdiv (wsub (divRoundUp h.mclk desired) 2)
    (clk, h.mclk / (clk + 2))
  else
    let clk := clampClkdiv (wsub (divRoundUp h.mclk (2 * desired % 4294967296)) 1)
    (clk, h.mclk / (2 * (clk + 1)))

/-- The bits for the width of the bus. -/
def busBits : BusWidth → Nat
  | .one => 0
  | .four => mci4bitBus
  | .eight => mciSt8bitBus

/-- `mmci_set_clkreg`, `drivers/mmc/host/mmci.c:582`. -/
def mmciSetClkreg (h : ClkHost) (desired : Nat) : ClkHost :=
  if desired = 0 then
    { h with mmciclock := h.variant.clkreg ||| busBits h.busWidth }
  else
    let (clk, cclk) := h.divider desired
    let clk := clk ||| h.variant.clkregEnable ||| mciClkEnable
    { h with cclk := cclk, mmciclock := clk ||| busBits h.busWidth }

/-- The field CLKDIV of the register. -/
def clkdiv (h : ClkHost) : Nat := h.mmciclock % 256

/-- `mmc->f_min`. -/
def fMin (h : ClkHost) : Nat := (h.mclk + 511) / 512

/-- The card clock `mclk / (CLKDIV + 2)` does not exceed the rate, `cclk` is its whole part, and
no lower divider serves the rate. -/
structure ClockOk (h : ClkHost) (desired : Nat) : Prop where
  le : h.mclk ≤ desired * (h.clkdiv + 2)
  cclk : h.cclk = h.mclk / (h.clkdiv + 2)
  least : ∀ d < h.clkdiv, desired * (d + 2) < h.mclk

theorem mmciSetClkreg_mclk (h : ClkHost) (desired : Nat) :
    (h.mmciSetClkreg desired).mclk = h.mclk := by
  unfold mmciSetClkreg
  split
  · rfl
  · rfl

theorem mmciSetClkreg_cclk (h : ClkHost) (desired : Nat) (hd : 1 ≤ desired) :
    (h.mmciSetClkreg desired).cclk = (h.divider desired).2 := by
  rw [mmciSetClkreg, if_neg (by omega)]

/-- The bits that are added stand above the divider. -/
theorem mmciSetClkreg_clkdiv (h : ClkHost) (desired : Nat) (hv : h.variant = variantUx500)
    (hd : 1 ≤ desired) : (h.mmciSetClkreg desired).clkdiv = (h.divider desired).1 % 256 := by
  have hbus : busBits h.busWidth % 2 ^ 8 = 0 := by cases h.busWidth <;> rfl
  have henable : h.variant.clkregEnable % 2 ^ 8 = 0 := by rw [hv]; rfl
  have hclk : mciClkEnable % 2 ^ 8 = 0 := rfl
  rw [clkdiv, mmciSetClkreg, if_neg (by omega)]
  change (_ ||| _) % 2 ^ 8 = _ % 2 ^ 8
  rw [Nat.or_mod_two_pow, Nat.or_mod_two_pow, Nat.or_mod_two_pow, hbus, henable, hclk,
    Nat.or_zero, Nat.or_zero, Nat.or_zero]

/-- Above the clock of the block the divider is 0, which halves it, while `cclk` is the whole. -/
theorem divider_of_le (h : ClkHost) (desired : Nat) (hv : h.variant = variantUx500)
    (hle : h.mclk ≤ desired) : h.divider desired = (mciClkEnable, h.mclk) := by
  have hst : h.variant.stClkdiv = true := by rw [hv, variantUx500]
  rw [divider, if_pos hle, if_pos hst, hv, variantUx500]

/-- The quotient rounded up is the least divisor that serves the rate. -/
theorem divRoundUp_spec (n d : Nat) (hd : 1 ≤ d) (hlt : d < n) (hn : n ≤ 100000000) :
    n ≤ d * divRoundUp n d ∧ (∀ k < divRoundUp n d, d * k < n) ∧
      2 ≤ divRoundUp n d ∧ divRoundUp n d < 4294967296 := by
  have hq : divRoundUp n d = (n + d - 1) / d := by
    rw [divRoundUp, wadd_of_lt (by omega), wsub_of_le (by omega) (by omega)]
  have hlow := Nat.lt_mul_div_succ (n + d - 1) hd
  have hhigh := Nat.mul_div_le (n + d - 1) d
  have htwo : 2 ≤ (n + d - 1) / d := (Nat.le_div_iff_mul_le hd).mpr (by omega)
  have hself := Nat.div_le_self (n + d - 1) d
  rw [← hq] at hlow hhigh htwo hself
  rw [Nat.mul_add] at hlow
  refine ⟨by omega, fun k hk => ?_, htwo, by omega⟩
  have hmul := Nat.mul_le_mul_left d (show k + 1 ≤ divRoundUp n d from hk)
  rw [Nat.mul_add] at hmul
  omega

/-- Below the clock of the block the divider is exact up to 257, the largest one there is. -/
theorem divider_of_lt (h : ClkHost) (desired : Nat) (hv : h.variant = variantUx500)
    (hd : 1 ≤ desired) (hlt : desired < h.mclk) (hn : h.mclk ≤ 100000000) :
    h.divider desired =
      (clampClkdiv (divRoundUp h.mclk desired - 2),
        h.mclk / (clampClkdiv (divRoundUp h.mclk desired - 2) + 2)) := by
  have hspec := divRoundUp_spec h.mclk desired hd hlt hn
  have hst : h.variant.stClkdiv = true := by rw [hv, variantUx500]
  rw [divider, if_neg (by omega), if_pos hst, wsub_of_le (by omega) (by omega)]

theorem clampClkdiv_lt (clk : Nat) : clampClkdiv clk < 256 := by
  unfold clampClkdiv
  split
  · decide
  · omega

/-- A rate below the clock of the block is served exactly when 257 divides the clock enough. -/
theorem clockOk_iff_of_lt (h : ClkHost) (desired : Nat) (hv : h.variant = variantUx500)
    (hd : 1 ≤ desired) (hlt : desired < h.mclk) (hn : h.mclk ≤ 100000000) :
    ClockOk (h.mmciSetClkreg desired) desired ↔ h.mclk ≤ 257 * desired := by
  obtain ⟨hle, hleast, htwo, -⟩ := divRoundUp_spec h.mclk desired hd hlt hn
  have hdiv := mmciSetClkreg_clkdiv h desired hv hd
  rw [divider_of_lt h desired hv hd hlt hn] at hdiv
  dsimp only at hdiv
  rw [Nat.mod_eq_of_lt (clampClkdiv_lt _)] at hdiv
  constructor
  · intro hok
    have hserved := hok.le
    have hmul := Nat.mul_le_mul_left desired
      (show clampClkdiv (divRoundUp h.mclk desired - 2) + 2 ≤ 257 from
        Nat.succ_le_succ (clampClkdiv_lt _))
    rw [mmciSetClkreg_mclk, hdiv] at hserved
    omega
  · intro h257
    have hq : divRoundUp h.mclk desired ≤ 257 := by
      apply Nat.le_of_not_lt
      intro hgt
      have hserved := hleast 257 hgt
      omega
    have hclk : clampClkdiv (divRoundUp h.mclk desired - 2) = divRoundUp h.mclk desired - 2 := by
      rw [clampClkdiv, if_neg (by omega)]
    rw [hclk] at hdiv
    constructor
    · rw [mmciSetClkreg_mclk, hdiv, Nat.sub_add_cancel htwo]
      exact hle
    · rw [mmciSetClkreg_cclk h desired hd, divider_of_lt h desired hv hd hlt hn, hclk,
        mmciSetClkreg_mclk, hdiv]
    · intro d hlow
      rw [mmciSetClkreg_mclk]
      exact hleast (d + 2) (by omega)

end ClkHost

open ClkHost

/-- The clock is set as requested exactly for the rates below the clock of the block that the
largest divider reaches. -/
theorem card_clock_ok (h : ClkHost) (desired : Nat) (hv : h.variant = variantUx500)
    (hlow : 1000000 ≤ h.mclk) (hhigh : h.mclk ≤ 100000000) (hmin : h.fMin ≤ desired) :
    ClockOk (h.mmciSetClkreg desired) desired ↔
      desired < h.mclk ∧ h.mclk ≤ 257 * desired := by
  have hd : 1 ≤ desired := by
    unfold fMin at hmin
    omega
  by_cases hlt : desired < h.mclk
  · rw [clockOk_iff_of_lt h desired hv hd hlt hhigh]
    exact (and_iff_right hlt).symm
  · constructor
    · intro hok
      have hcclk := hok.cclk
      have hdiv := mmciSetClkreg_clkdiv h desired hv hd
      have heq := divider_of_le h desired hv (by omega)
      rw [heq] at hdiv
      rw [mmciSetClkreg_cclk h desired hd, heq, mmciSetClkreg_mclk, hdiv] at hcclk
      dsimp only at hcclk
      rw [show mciClkEnable % 256 + 2 = 2 from rfl] at hcclk
      omega
    · intro hok
      exact absurd hok.1 hlt

/-- The host of a 48 MHz block before the first rate is set. -/
def host48 : ClkHost := ⟨variantUx500, 48000000, 0, .one, 0⟩

/-- The identification rate of 400 kHz. -/
theorem card_clock_ok_400k : ClockOk (host48.mmciSetClkreg 400000) 400000 :=
  (card_clock_ok host48 400000 rfl (by decide) (by decide) (by decide)).mpr (by decide)

/-- At the least rate that is reported the card runs at `48 MHz / 257`. -/
theorem card_clock_exceeds_fMin :
    host48.fMin = 93750 ∧ ¬ ClockOk (host48.mmciSetClkreg 93750) 93750 :=
  ⟨by decide, fun hok => absurd hok.le (by decide)⟩

end LinuxStm32.Drivers.Mmc
