import LinuxStm32.Base.Field
import LinuxStm32.Base.System
import Mathlib.Data.List.Basic
import Mathlib.Logic.Function.Basic

/-!
# The SPI controller and its slaves

`drivers/spi/spi_stm32.c:177–264,321–462,618–647,970–1037,1089–1124` for the STM32F7. A message is
two steps, from the preparation of the controller to the start of the transfer and from its end on,
so that the registers can be read while the message is transferred; the transfer itself writes the
data register only. A slave has a number. `tuned` records the settings the controller was last
prepared for.
-/

namespace LinuxStm32.Drivers.Spi

open Base

/-- The settings of a slave, from `struct spi_device` and its controller data. -/
structure SpiDevice where
  maxSpeedHz : Nat
  bitsPerWord : Nat
  mode : BitVec 8
  csGpio : Nat
  deriving DecidableEq, Repr

/-- The control registers. -/
structure SpiRegs where
  cr1 : BitVec 32
  cr2 : BitVec 32
  deriving DecidableEq, Repr

/-- `struct spi_stm32`, its registers, the slaves and the chip selects. -/
structure SpiStm32 where
  regs : SpiRegs
  speedHz : Nat
  stopping : Bool
  slave : Option Nat
  dev : Nat → SpiDevice
  gpio : Nat → Bool
  /-- The slave whose message is on the wire. -/
  xfer : Option Nat
  tuned : SpiDevice

namespace SpiRegs

/-- `spi_stm32_hw_init`, `drivers/spi/spi_stm32.c:177`: out of reset, `CR2` has a data size of 8. -/
def hwInit : SpiRegs :=
  -- MSTR, then SSM and SSI, then SPE; RXNEIE and ERRIE
  ⟨setBit (setBit (setBit (setBit 0#32 2) 9) 8) 6, setBit (setBit 0x700#32 6) 5⟩

/-- `bt - 1` as an `int`. -/
def dataSize (bt : Nat) : BitVec 32 := BitVec.ofNat 32 bt - 1#32

/-- `spi_stm32_hw_bt_set`, `drivers/spi/spi_stm32.c:377`. -/
def hwBtSet (r : SpiRegs) (bt : Nat) : SpiRegs :=
  let v := r.cr2 &&& ~~~ (fieldMask 32 4 <<< 8)
  { r with cr2 := v ||| (dataSize bt <<< 8 ||| if bt = 8 then 1#32 <<< 12 else 0#32) }

/-- The loop of `spi_stm32_hw_clk_set`, with `n` dividers left from `i` on. -/
def clkLoop (h spd : Nat) : Nat → Nat → Option Nat
  | 0, _ => none
  | n + 1, i => if h / 2 ^ i ≤ spd then some i else clkLoop h spd n (i + 1)

/-- The first divider that is slow enough. -/
def clkDiv (h spd : Nat) : Option Nat := clkLoop h spd 8 1

/-- `spi_stm32_hw_clk_set`, `drivers/spi/spi_stm32.c:321`. -/
def hwClkSet (r : SpiRegs) (h spd : Nat) : Int × SpiRegs :=
  match clkDiv h spd with
  | none => (-5, r)
  | some i => (0, { r with cr1 := (BitVec.ofNat 32 (i - 1) <<< 3) ||| r.cr1 })

/-- `spi_stm32_hw_mode_set`, `drivers/spi/spi_stm32.c:426`. -/
def hwModeSet (r : SpiRegs) (mode : BitVec 8) : SpiRegs :=
  let cr1 := clearBit r.cr1 6
  let cr1 := putBit cr1 0 (mode.getLsbD 0)
  let cr1 := putBit cr1 1 (mode.getLsbD 1)
  { r with cr1 := setBit cr1 6 }

/-- `spi_stm32_prepare_for_slave`, `drivers/spi/spi_stm32.c:618`. -/
def prepareForSlave (r : SpiRegs) (speedHz : Nat) (s : SpiDevice) : Int × SpiRegs :=
  let r := r.hwBtSet s.bitsPerWord
  match r.hwClkSet speedHz (min s.maxSpeedHz speedHz) with
  | (0, r) => (0, r.hwModeSet s.mode)
  | (_, r) => (-22, r)

end SpiRegs

namespace SpiStm32

/-- `spi_stm32_capture_slave` and `spi_stm32_release_slave`: the chip select is active low. -/
def csSet (c : SpiStm32) (s : Nat) (activate : Bool) : SpiStm32 :=
  { c with gpio := Function.update c.gpio (c.dev s).csGpio (!activate) }

/-- `spi_stm32_handle_message`, `drivers/spi/spi_stm32.c:970`, to the start of the transfer; a
controller that cannot be prepared releases the slave at once. -/
def handleMessage (c : SpiStm32) (s : Nat) : Int × SpiStm32 :=
  if c.slave = some s then
    (0, { c.csSet s true with xfer := some s })
  else
    match c.regs.prepareForSlave c.speedHz (c.dev s) with
    | (0, r) =>
      let c := { c with slave := some s, regs := r, tuned := c.dev s }
      (0, { c.csSet s true with xfer := some s })
    | (ret, r) =>
      let c := { c with slave := none, regs := r }
      (ret, c.csSet s false)

/-- The end of `spi_stm32_handle_message`. -/
def messageDone (c : SpiStm32) (s : Nat) : SpiStm32 := { c.csSet s false with xfer := none }

/-- `spi_stm32_setup`, `drivers/spi/spi_stm32.c:1089`, for a slave whose settings were changed. -/
def setup (c : SpiStm32) (s : Nat) (d : SpiDevice) : Int × SpiStm32 :=
  let c := { c with dev := Function.update c.dev s d }
  if c.stopping then (-108, c)
  else if d.bitsPerWord ≠ 8 ∧ d.bitsPerWord ≠ 16 then (-22, c)
  else (0, c.csSet s false)

end SpiStm32

/-- The calls; a message begins and is done. -/
inductive SpiCall
  | setup (s : Nat) (d : SpiDevice)
  | message (s : Nat)
  | done

/-- One step; a call begins when no message is on the wire. -/
def spiStep (c : SpiStm32) : SpiCall → Option SpiStm32
  | .setup s d => if c.xfer = none ∧ d.bitsPerWord < 256 then some (c.setup s d).2 else none
  | .message s => if c.xfer = none then some (c.handleMessage s).2 else none
  | .done => c.xfer.map c.messageDone

/-- All sequences of calls on a controller that was just initialised. -/
def spiSystem : System SpiStm32 SpiCall where
  init c := c.regs = .hwInit ∧ c.slave = none ∧ c.xfer = none ∧ ∀ s, (c.dev s).bitsPerWord < 256
  step := spiStep

/-! ### The fields -/

/-- The fields that depend on the slave. -/
structure SpiFields where
  br : BitVec 32
  ds : Int
  frxth : Bool
  cpha : Bool
  cpol : Bool
  deriving DecidableEq, Repr

/-- What the registers hold. -/
def SpiRegs.fields (r : SpiRegs) : SpiFields where
  br := getField r.cr1 3 3
  ds := (getField r.cr2 8 4).toNat
  frxth := r.cr2.getLsbD 12
  cpha := r.cr1.getLsbD 0
  cpol := r.cr1.getLsbD 1

/-- What the settings of a slave ask for, with the divider `2 ^ i`. -/
def SpiDevice.fields (d : SpiDevice) (i : Nat) : SpiFields where
  br := BitVec.ofNat 32 (i - 1)
  ds := d.bitsPerWord - 1
  frxth := d.bitsPerWord == 8
  cpha := d.mode.getLsbD 0
  cpol := d.mode.getLsbD 1

/-- The fields the settings of a slave determine on a controller; none if the slave is too slow. -/
def SpiDevice.target (d : SpiDevice) (speedHz : Nat) : Option SpiFields :=
  (SpiRegs.clkDiv speedHz (min d.maxSpeedHz speedHz)).map d.fields

/-- The controller has the settings of the slave, and its clock is not too fast for it. -/
def TunedFor (c : SpiStm32) (s : Nat) : Prop :=
  ∃ i, SpiRegs.clkDiv c.speedHz (min (c.dev s).maxSpeedHz c.speedHz) = some i ∧
    c.regs.fields = (c.dev s).fields i ∧ c.speedHz ≤ (c.dev s).maxSpeedHz * 2 ^ i

/-- No divider gives the slave's rate with a remainder. -/
def ExactDiv (speedHz : Nat) (d : SpiDevice) : Prop :=
  ∀ i, 1 ≤ i → i ≤ 8 → speedHz / 2 ^ i = d.maxSpeedHz → speedHz % 2 ^ i = 0

/-- When the controller is prepared for another slave: the frame size is one the field holds,
`FRXTH` is clear unless it is wanted, and the rate field has no bit that is not wanted. -/
structure FieldsFree (r : SpiRegs) (d : SpiDevice) (i : Nat) : Prop where
  pos : 1 ≤ d.bitsPerWord
  le : d.bitsPerWord ≤ 16
  frxth : d.bitsPerWord = 8 ∨ r.cr2.getLsbD 12 = false
  br : getField r.cr1 3 3 ||| BitVec.ofNat 32 (i - 1) = BitVec.ofNat 32 (i - 1)

/-- The condition on a call: a slave's message follows its own with settings that determine the same
fields, or finds the fields of the controller free. -/
def SpiOk (c : SpiStm32) : SpiCall → Prop
  | .message s =>
    if c.slave = some s then
      (c.dev s).target c.speedHz = c.tuned.target c.speedHz ∧ ExactDiv c.speedHz (c.dev s)
    else
      ∀ i, SpiRegs.clkDiv c.speedHz (min (c.dev s).maxSpeedHz c.speedHz) = some i →
        FieldsFree c.regs (c.dev s) i ∧ ExactDiv c.speedHz (c.dev s)
  | _ => True

/-! ### The rate -/

private theorem clkLoop_some {h spd n i j : Nat} (he : SpiRegs.clkLoop h spd n i = some j) :
    i ≤ j ∧ j < i + n ∧ h / 2 ^ j ≤ spd ∧ ∀ k, i ≤ k → k < j → spd < h / 2 ^ k := by
  induction n generalizing i with
  | zero => cases he
  | succ n ih =>
    rw [SpiRegs.clkLoop] at he
    split at he
    next hle =>
      obtain rfl := Option.some.inj he
      exact ⟨Nat.le_refl _, by omega, hle, fun k hk hlt => absurd hlt (Nat.not_lt.mpr hk)⟩
    next hgt =>
      obtain ⟨hij, hjn, hle, hmin⟩ := ih he
      refine ⟨by omega, by omega, hle, fun k hk hlt => ?_⟩
      by_cases hki : k = i
      · rw [hki]
        omega
      · exact hmin k (by omega) hlt

/-- The chosen rate is not too fast exactly if no divider gives the slave's rate with a
remainder. -/
theorem exactDiv_iff {h i : Nat} {d : SpiDevice}
    (he : SpiRegs.clkDiv h (min d.maxSpeedHz h) = some i) :
    h ≤ d.maxSpeedHz * 2 ^ i ↔ ExactDiv h d := by
  obtain ⟨h1, h8, hle, hmin⟩ := clkLoop_some he
  have hpos : ∀ k, 0 < 2 ^ k := fun k => Nat.two_pow_pos k
  have hmax : h / 2 ^ i ≤ d.maxSpeedHz := Nat.le_trans hle (Nat.min_le_left _ _)
  constructor
  · intro hfast j hj1 hj8 hdiv
    have hdm := Nat.div_add_mod h (2 ^ j)
    rw [hdiv] at hdm
    rcases Nat.lt_trichotomy i j with hij | rfl | hji
    · -- A smaller divider was slow enough, so the quotient is 0.
      have hpow : 2 ^ j = 2 ^ i * 2 ^ (j - i) := by
        rw [← Nat.pow_add]
        congr 1
        omega
      have htwo : 2 ≤ 2 ^ (j - i) := Nat.le_self_pow (by omega) 2
      have hhalf : h / 2 ^ j ≤ h / 2 ^ i / 2 := by
        rw [hpow, ← Nat.div_div_eq_div_mul]
        exact Nat.div_le_div_left htwo (by decide)
      have hzero : d.maxSpeedHz = 0 := by omega
      rw [hzero, Nat.zero_mul] at hfast
      rw [Nat.le_zero.mp hfast, Nat.zero_mod]
    · rw [Nat.mul_comm] at hfast
      omega
    · have hlt := hmin j hj1 hji
      rw [hdiv] at hlt
      have hself : h / 2 ^ j ≤ h := Nat.div_le_self _ _
      omega
  · intro hexact
    have hdm := Nat.div_add_mod h (2 ^ i)
    have hmod := Nat.mod_lt h (hpos i)
    by_cases heq : h / 2 ^ i = d.maxSpeedHz
    · have hrem := hexact i h1 (by omega) heq
      rw [hrem, heq, Nat.add_zero, Nat.mul_comm] at hdm
      exact Nat.le_of_eq hdm.symm
    · have hsucc : 2 ^ i * (h / 2 ^ i + 1) ≤ 2 ^ i * d.maxSpeedHz :=
        Nat.mul_le_mul_left _ (by omega)
      rw [Nat.mul_add, Nat.mul_one] at hsucc
      rw [Nat.mul_comm]
      omega

/-! ### Preparing the controller -/

private theorem hwModeSet_bit (r : SpiRegs) (mode : BitVec 8) {j : Nat} (hj : j < 32)
    (h6 : 6 ≠ j) :
    (r.hwModeSet mode).cr1.getLsbD j =
      if 1 = j then mode.getLsbD 1 else if 0 = j then mode.getLsbD 0 else r.cr1.getLsbD j := by
  simp only [SpiRegs.hwModeSet]
  rw [setBit_bit_of_ne h6, putBit_bit hj, putBit_bit hj, clearBit_bit, decide_eq_false h6,
    Bool.not_false, Bool.and_true]

private theorem dataSize_toNat {bt : Nat} (hbt : bt < 256) :
    (SpiRegs.dataSize bt).toNat % 16 = (bt + 15) % 16 ∧
      (1 ≤ bt → (SpiRegs.dataSize bt).toNat = bt - 1) := by
  rw [SpiRegs.dataSize, BitVec.toNat_sub, BitVec.toNat_ofNat, BitVec.toNat_ofNat]
  omega

/-- The bits of the data size and those above it. -/
private theorem hwBtSet_bit (r : SpiRegs) (bt : Nat) {i : Nat} (hi : 8 + i < 32) :
    (r.hwBtSet bt).cr2.getLsbD (8 + i) = (r.cr2.getLsbD (8 + i) && !decide (i < 4) ||
      ((SpiRegs.dataSize bt).getLsbD i || decide (bt = 8 ∧ i = 4))) := by
  have hlo : ¬ 8 + i < 8 := by omega
  have hfr : (if bt = 8 then 1#32 <<< 12 else 0#32).getLsbD (8 + i) =
      decide (bt = 8 ∧ i = 4) := by
    by_cases h8 : bt = 8
    · have hiff : (12 = 8 + i) ↔ (bt = 8 ∧ i = 4) := by omega
      rw [if_pos h8, one_shiftLeft_bit hi, decide_eq_decide.mpr hiff]
    · rw [if_neg h8, decide_eq_false (fun h => h8 h.1), BitVec.getLsbD_zero]
  rw [SpiRegs.hwBtSet]
  dsimp only
  rw [BitVec.getLsbD_or, BitVec.getLsbD_or, hfr, BitVec.getLsbD_and, BitVec.getLsbD_not,
    BitVec.getLsbD_shiftLeft, BitVec.getLsbD_shiftLeft, Nat.add_sub_cancel_left,
    fieldMask_bit (by omega)]
  simp only [hi, hlo, decide_true, decide_false, Bool.not_false, Bool.true_and]

private theorem hwBtSet_ds (r : SpiRegs) {bt : Nat} (hbt : bt < 256) :
    (getField (r.hwBtSet bt).cr2 8 4).toNat = (bt + 15) % 16 := by
  have hlow : getField (r.hwBtSet bt).cr2 8 4 = SpiRegs.dataSize bt &&& fieldMask 32 4 := by
    apply BitVec.eq_of_getLsbD_eq
    intro i hi
    rw [getField_bit hi, BitVec.getLsbD_and, fieldMask_bit hi]
    by_cases hlt : i < 4
    · have hne : ¬ (bt = 8 ∧ i = 4) := by omega
      rw [hwBtSet_bit r bt (by omega), decide_eq_true hlt, decide_eq_false hne, Bool.not_true,
        Bool.and_false, Bool.false_or, Bool.or_false]
    · rw [decide_eq_false hlt, Bool.and_false, Bool.and_false]
  have hmask : (fieldMask 32 4).toNat = 2 ^ 4 - 1 := by
    rw [fieldMask, BitVec.toNat_ofNat, Nat.mod_eq_of_lt (by decide)]
  rw [hlow, BitVec.toNat_and, ← (dataSize_toNat hbt).1, hmask, Nat.and_two_pow_sub_one_eq_mod]

private theorem hwBtSet_frxth (r : SpiRegs) {bt : Nat} (hpos : 1 ≤ bt) (hle : bt ≤ 16) :
    (r.hwBtSet bt).cr2.getLsbD 12 = (r.cr2.getLsbD 12 || bt == 8) := by
  have hds : (SpiRegs.dataSize bt).getLsbD 4 = false := by
    apply bit_of_fits _ (Nat.le_refl 4)
    rw [(dataSize_toNat (by omega)).2 hpos]
    omega
  have hbit := hwBtSet_bit r bt (show 8 + 4 < 32 by decide)
  rw [hds] at hbit
  refine hbit.trans ?_
  by_cases h8 : bt = 8
  · simp [h8]
  · simp [h8]

/-- The controller is prepared, or the slave is too slow. -/
theorem prepare_case (r : SpiRegs) (h : Nat) (d : SpiDevice) :
    (SpiRegs.clkDiv h (min d.maxSpeedHz h) = none ∧
        r.prepareForSlave h d = (-22, r.hwBtSet d.bitsPerWord)) ∨
      ∃ i, SpiRegs.clkDiv h (min d.maxSpeedHz h) = some i ∧
        r.prepareForSlave h d = ((0 : Int), (SpiRegs.mk
          ((BitVec.ofNat 32 (i - 1) <<< 3) ||| (r.hwBtSet d.bitsPerWord).cr1)
          (r.hwBtSet d.bitsPerWord).cr2).hwModeSet d.mode) := by
  cases he : SpiRegs.clkDiv h (min d.maxSpeedHz h) with
  | none =>
    left
    refine ⟨rfl, ?_⟩
    simp only [SpiRegs.prepareForSlave, SpiRegs.hwClkSet, he]
  | some i =>
    right
    refine ⟨i, rfl, ?_⟩
    simp only [SpiRegs.prepareForSlave, SpiRegs.hwClkSet, he]

/-- A prepared controller has the slave's fields exactly if its fields were free. -/
theorem prepare_fields {r : SpiRegs} {d : SpiDevice} (hbits : d.bitsPerWord < 256) {i : Nat}
    (hi : i - 1 < 8) :
    (((SpiRegs.mk ((BitVec.ofNat 32 (i - 1) <<< 3) ||| (r.hwBtSet d.bitsPerWord).cr1)
        (r.hwBtSet d.bitsPerWord).cr2).hwModeSet d.mode).fields = d.fields i) ↔
      FieldsFree r d i := by
  generalize hq : SpiRegs.mk ((BitVec.ofNat 32 (i - 1) <<< 3) ||| (r.hwBtSet d.bitsPerWord).cr1)
    (r.hwBtSet d.bitsPerWord).cr2 = q
  have hv : (BitVec.ofNat 32 (i - 1)).toNat < 2 ^ 3 := by
    rw [BitVec.toNat_ofNat]
    omega
  have hbr : getField (q.hwModeSet d.mode).cr1 3 3 =
      getField r.cr1 3 3 ||| BitVec.ofNat 32 (i - 1) := by
    have hcongr : getField (q.hwModeSet d.mode).cr1 3 3 = getField q.cr1 3 3 := by
      apply getField_congr
      intro j hj
      simp only [InField] at hj
      rw [hwModeSet_bit q d.mode (by omega) (by omega), if_neg (by omega), if_neg (by omega)]
    rw [hcongr, ← hq, getField_or, getField_shiftLeft (by decide) hv, BitVec.or_comm]
    rfl
  have hcr2 : (q.hwModeSet d.mode).cr2 = (r.hwBtSet d.bitsPerWord).cr2 := by
    rw [← hq]
    rfl
  have hcpha : (q.hwModeSet d.mode).cr1.getLsbD 0 = d.mode.getLsbD 0 :=
    hwModeSet_bit q d.mode (by decide) (by decide)
  have hcpol : (q.hwModeSet d.mode).cr1.getLsbD 1 = d.mode.getLsbD 1 :=
    hwModeSet_bit q d.mode (by decide) (by decide)
  simp only [SpiRegs.fields, SpiDevice.fields, SpiFields.mk.injEq, hbr, hcr2, hwBtSet_ds r hbits,
    hcpha, hcpol, and_true]
  constructor
  · rintro ⟨hbr', hds, hfr⟩
    have hpos : 1 ≤ d.bitsPerWord := by omega
    have hle : d.bitsPerWord ≤ 16 := by omega
    refine ⟨hpos, hle, ?_, hbr'⟩
    rw [hwBtSet_frxth r hpos hle] at hfr
    by_cases h8 : d.bitsPerWord = 8
    · exact .inl h8
    · right
      rw [beq_eq_false_iff_ne.mpr h8, Bool.or_false] at hfr
      exact hfr
  · intro hf
    refine ⟨hf.br, ?_, ?_⟩
    · have hpos := hf.pos
      have hle := hf.le
      omega
    · rw [hwBtSet_frxth r hf.pos hf.le]
      rcases hf.frxth with h8 | hclear
      · rw [h8, beq_self_eq_true, Bool.or_true]
      · rw [hclear, Bool.false_or]

/-! ### Runs -/

variable {c c' : SpiStm32} {s : Nat}

/-- A message can go to the wire as it is, or after the controller was prepared, or not at all. -/
inductive MessageCase (c : SpiStm32) (s : Nat) : SpiStm32 → Prop
  | same (hs : c.slave = some s) (gpio : Nat → Bool) :
      MessageCase c s { c with gpio := gpio, xfer := some s }
  | prepared (hs : c.slave ≠ some s) (gpio : Nat → Bool) (i : Nat) (r : SpiRegs)
      (hi : SpiRegs.clkDiv c.speedHz (min (c.dev s).maxSpeedHz c.speedHz) = some i)
      (hr : r.fields = (c.dev s).fields i ↔ FieldsFree c.regs (c.dev s) i) :
      MessageCase c s
        { c with slave := some s, regs := r, tuned := c.dev s, gpio := gpio, xfer := some s }
  | refused (hs : c.slave ≠ some s) (gpio : Nat → Bool) (r : SpiRegs)
      (hi : SpiRegs.clkDiv c.speedHz (min (c.dev s).maxSpeedHz c.speedHz) = none) :
      MessageCase c s { c with slave := none, regs := r, gpio := gpio }

theorem message_case (hbits : (c.dev s).bitsPerWord < 256) :
    MessageCase c s (c.handleMessage s).2 := by
  rw [SpiStm32.handleMessage]
  split
  next hs => exact .same hs _
  next hs =>
    rcases prepare_case c.regs c.speedHz (c.dev s) with ⟨hi, hp⟩ | ⟨i, hi, hp⟩
    · rw [hp]
      exact .refused hs _ _ hi
    · have hlt := (clkLoop_some hi).2.1
      rw [hp]
      exact .prepared hs _ i _ hi (prepare_fields hbits (by omega))

/-- The frame sizes are bytes, the prepared settings are those in the registers, and the message on
the wire is for the prepared slave, whose settings the controller has. -/
structure SpiInv (c : SpiStm32) : Prop where
  bits : ∀ s, (c.dev s).bitsPerWord < 256
  tuned : ∀ s, c.slave = some s → c.tuned.target c.speedHz = some c.regs.fields
  xfer : ∀ s, c.xfer = some s → TunedFor c s

private theorem target_of_some {h i : Nat} {d : SpiDevice}
    (hi : SpiRegs.clkDiv h (min d.maxSpeedHz h) = some i) : d.target h = some (d.fields i) := by
  rw [SpiDevice.target, hi, Option.map_some]

/-- A message on the wire has its slave's settings exactly if it meets the condition. -/
theorem message_tuned_iff (h : SpiInv c) (hidle : c.xfer = none) :
    (∀ t, (c.handleMessage s).2.xfer = some t → TunedFor (c.handleMessage s).2 t) ↔
      SpiOk c (.message s) := by
  simp only [SpiOk]
  have hcase := message_case (h.bits s)
  generalize (c.handleMessage s).2 = c1 at hcase ⊢
  cases hcase with
  | same hs gpio =>
    rw [if_pos hs, h.tuned s hs]
    constructor
    · intro ht
      obtain ⟨i, hi, hf, hclk⟩ := ht s rfl
      rw [target_of_some hi, ← hf]
      exact ⟨rfl, (exactDiv_iff hi).mp hclk⟩
    · rintro ⟨htarget, hexact⟩ t ht
      obtain rfl : s = t := Option.some.inj ht
      rw [SpiDevice.target, Option.map_eq_some_iff] at htarget
      obtain ⟨i, hi, hf⟩ := htarget
      exact ⟨i, hi, hf.symm, (exactDiv_iff hi).mpr hexact⟩
  | prepared hs gpio i r hi hr =>
    rw [if_neg hs]
    constructor
    · intro ht j hj
      obtain rfl : i = j := Option.some.inj (hi.symm.trans hj)
      obtain ⟨k, hk, hf, hclk⟩ := ht s rfl
      obtain rfl : i = k := Option.some.inj (hi.symm.trans hk)
      exact ⟨hr.mp hf, (exactDiv_iff hi).mp hclk⟩
    · intro hok t ht
      obtain rfl : s = t := Option.some.inj ht
      obtain ⟨hfree, hexact⟩ := hok i hi
      exact ⟨i, hi, hr.mpr hfree, (exactDiv_iff hi).mpr hexact⟩
  | refused hs gpio r hi =>
    rw [if_neg hs]
    constructor
    · intro _ j hj
      rw [hi] at hj
      cases hj
    · intro _ t ht
      rw [hidle] at ht
      cases ht

private theorem message_inv (h : SpiInv c) (hidle : c.xfer = none) (hok : SpiOk c (.message s)) :
    SpiInv (c.handleMessage s).2 := by
  have hxfer := (message_tuned_iff h hidle).mpr hok
  have hcase := message_case (h.bits s)
  generalize (c.handleMessage s).2 = c1 at hcase hxfer ⊢
  cases hcase with
  | same hs gpio => exact ⟨h.bits, h.tuned, hxfer⟩
  | prepared hs gpio i r hi hr =>
    refine ⟨h.bits, fun t _ => ?_, hxfer⟩
    obtain ⟨k, hk, hf, _⟩ := hxfer s rfl
    rw [target_of_some hk, hf]
  | refused hs gpio r hi =>
    refine ⟨h.bits, fun t ht => ?_, hxfer⟩
    cases ht

theorem spiInv_step {a : SpiCall} (h : SpiInv c) (hok : SpiOk c a) (he : spiStep c a = some c') :
    SpiInv c' := by
  cases a with
  | setup s d =>
    rw [spiStep] at he
    split at he
    next hpre =>
      obtain rfl := Option.some.inj he
      have hbits : ∀ t, (Function.update c.dev s d t).bitsPerWord < 256 := by
        intro t
        by_cases ht : t = s
        · rw [ht, Function.update_self]
          exact hpre.2
        · rw [Function.update_of_ne ht]
          exact h.bits t
      have hxfer : ∀ t, c.xfer = some t → False := by
        intro t ht
        rw [hpre.1] at ht
        cases ht
      rw [SpiStm32.setup]
      dsimp only
      split
      · exact ⟨hbits, h.tuned, fun t ht => absurd ht (hxfer t)⟩
      · split
        · exact ⟨hbits, h.tuned, fun t ht => absurd ht (hxfer t)⟩
        · exact ⟨hbits, h.tuned, fun t ht => absurd ht (hxfer t)⟩
    next => cases he
  | message s =>
    rw [spiStep] at he
    split at he
    next hidle =>
      obtain rfl := Option.some.inj he
      exact message_inv h hidle hok
    next => cases he
  | done =>
    rw [spiStep, Option.map_eq_some_iff] at he
    obtain ⟨s, _, rfl⟩ := he
    exact ⟨h.bits, h.tuned, nofun⟩

theorem spiInv_reach (h : spiSystem.Reach SpiOk c) : SpiInv c := by
  apply System.Reach.invariant _ _ h
  · rintro c ⟨_, hslave, hxfer, hbits⟩
    refine ⟨hbits, fun s hs => ?_, fun s hs => ?_⟩
    · rw [hslave] at hs
      cases hs
    · rw [hxfer] at hs
      cases hs
  · intro c a c' hc hok he
    exact spiInv_step hc hok he

/-- In every run whose messages meet the condition, the controller has the settings of the slave
whose message is on the wire. A message from such a state has them exactly if it meets the
condition. -/
theorem spi_message_settings (h : spiSystem.Reach SpiOk c) :
    (∀ s, c.xfer = some s → TunedFor c s) ∧
      ∀ s c', spiStep c (.message s) = some c' →
        ((∀ t, c'.xfer = some t → TunedFor c' t) ↔ SpiOk c (.message s)) := by
  have hinv := spiInv_reach h
  refine ⟨hinv.xfer, fun s c' he => ?_⟩
  rw [spiStep] at he
  split at he
  next hidle =>
    obtain rfl := Option.some.inj he
    exact message_tuned_iff hinv hidle
  next => cases he

/-- A controller of 50 MHz that was just initialised. Slave 0 has 8 bits and takes 25 MHz, slave 1
has 16 bits and takes 25 MHz, slave 2 has 8 bits and takes 3.125 MHz. -/
def SpiStm32.start : SpiStm32 where
  regs := .hwInit
  speedHz := 50000000
  stopping := false
  slave := none
  dev s := match s with
    | 0 => ⟨25000000, 8, 0#8, 40⟩
    | 1 => ⟨25000000, 16, 3#8, 41⟩
    | _ => ⟨3125000, 8, 0#8, 42⟩
  gpio _ := true
  xfer := none
  tuned := ⟨0, 0, 0#8, 0⟩

/-- The first message of a controller. -/
theorem spi_message_settings_first :
    ∃ c, spiSystem.exec .start [.message 0] = some c ∧ TunedFor c 0 := by
  have h0 : spiSystem.Reach SpiOk .start := by
    refine .init ⟨rfl, rfl, rfl, fun s => ?_⟩
    show (SpiStm32.start.dev s).bitsPerWord < 256
    match s with
    | 0 => decide
    | 1 => decide
    | n + 2 =>
      show 8 < 256
      decide
  have hok : SpiOk .start (.message 0) := by
    intro i hi
    obtain rfl : 1 = i := Option.some.inj hi
    refine ⟨⟨by decide, by decide, .inl rfl, by decide⟩, fun j h1 h8 hdiv => ?_⟩
    have hall : ∀ j < 9, 1 ≤ j → 50000000 / 2 ^ j = 25000000 → 50000000 % 2 ^ j = 0 := by decide
    exact hall j (by omega) h1 hdiv
  exact ⟨_, rfl, (spi_message_settings (h0.step hok rfl)).1 0 rfl⟩

/-- A message for the slow slave between messages for the fast one, and one with 16 bits after one
with 8: the rate of the slow slave and `FRXTH` stay. A message after the slave's rate was lowered:
the clock is too fast. -/
theorem spi_settings_stick :
    ((spiSystem.exec .start [.message 2, .done, .message 0]).map fun c =>
        (c.regs.fields.br, ((c.dev 0).fields 1).br)) = some (3#32, 0#32) ∧
      ((spiSystem.exec .start [.message 0, .done, .message 1]).map fun c =>
        (c.regs.fields.frxth, ((c.dev 1).fields 1).frxth)) = some (true, false) ∧
      ((spiSystem.exec .start [.message 0, .done, .setup 0 ⟨1000000, 8, 0#8, 40⟩,
        .message 0]).map fun c => (c.xfer, c.regs.fields.br, (c.dev 0).maxSpeedHz)) =
          some (some 0, 0#32, 1000000) := by
  decide

end LinuxStm32.Drivers.Spi
