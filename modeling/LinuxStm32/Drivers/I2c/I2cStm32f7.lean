import Mathlib.Data.Nat.Basic
import Mathlib.Algebra.Order.Ring.Int

/-!
# The I2C controller driver

`drivers/i2c/busses/i2c-stm32f7.c:474–706`: `i2c_stm32_transfer` sets up a message in chunks of at
most 255 bytes and `i2c_stm32_irq` programs the next chunk each time the controller raises TCR. The
controller clears START once the address is sent, raises TCR when a chunk with RELOAD is exhausted,
and generates STOP when one without is. The data go by DMA and are left out.
-/

namespace LinuxStm32.Drivers.I2c

/-! ### Registers -/

/-- `_CR1_ERRIE`. -/
def cr1Errie : BitVec 32 := 1#32 <<< 7

/-- `_CR1_TCIE`. -/
def cr1Tcie : BitVec 32 := 1#32 <<< 6

/-- `_CR1_STOPIE`. -/
def cr1Stopie : BitVec 32 := 1#32 <<< 5

/-- `_CR1_RXDMAEN`. -/
def cr1Rxdmaen : BitVec 32 := 1#32 <<< 15

/-- `_CR1_TXDMAEN`. -/
def cr1Txdmaen : BitVec 32 := 1#32 <<< 14

/-- `_CR2_AUTOEND`. -/
def cr2Autoend : BitVec 32 := 1#32 <<< 25

/-- `_CR2_RELOAD`. -/
def cr2Reload : BitVec 32 := 1#32 <<< 24

/-- `_CR2_NBYTES`. -/
def cr2Nbytes (x : Nat) : BitVec 32 := (BitVec.ofNat 32 x &&& 0xff#32) <<< 16

/-- `_CR2_STOP`. -/
def cr2Stop : BitVec 32 := 1#32 <<< 14

/-- `_CR2_START`. -/
def cr2Start : BitVec 32 := 1#32 <<< 13

/-- `_CR2_RD_WRN`. -/
def cr2RdWrn : BitVec 32 := 1#32 <<< 10

/-- `_CR2_SADDR7`. -/
def cr2Saddr7 (x : BitVec 16) : BitVec 32 := (x.setWidth 32 &&& 0x7f#32) <<< 1

/-- `_CR2_SADDR10`. -/
def cr2Saddr10 (x : BitVec 16) : BitVec 32 := (x.setWidth 32 &&& 0x3ff#32) ||| 1#32 <<< 11

/-- The fields of CR2 that `_cr2_set_val` clears: all but the reserved ones. -/
def cr2Fields : BitVec 32 := 0x07ffffff#32

/-- `_ISR_TCR`. -/
def isrTcr : BitVec 32 := 1#32 <<< 7

/-- `_ISR_STOPF`, and `_ICR_STOPCF`. -/
def isrStopf : BitVec 32 := 1#32 <<< 5

/-- `_ISR_NACKF`, and `_ICR_NACKCF`. -/
def isrNackf : BitVec 32 := 1#32 <<< 4

/-- The registers of the controller in use and the fields of `struct i2c_stm32f7` that change. -/
structure I2cStm32f7 where
  cr1 : BitVec 32
  cr2 : BitVec 32
  isr : BitVec 32
  nbytes : Nat
  msgStatus : Int
  deriving DecidableEq, Repr

/-- `struct i2c_msg` without its data. -/
structure I2cMsg where
  addr : BitVec 16
  ten : Bool
  rd : Bool
  len : Nat
  deriving DecidableEq, Repr

namespace I2cStm32f7

/-- `_cr1_set_bits`. -/
def cr1SetBits (c : I2cStm32f7) (mask : BitVec 32) : I2cStm32f7 := { c with cr1 := c.cr1 ||| mask }

/-- `_cr1_clear_bits`. -/
def cr1ClearBits (c : I2cStm32f7) (mask : BitVec 32) : I2cStm32f7 :=
  { c with cr1 := c.cr1 &&& ~~~ mask }

/-- `_cr2_set_val`. -/
def cr2SetVal (c : I2cStm32f7) (val : BitVec 32) : I2cStm32f7 :=
  { c with cr2 := (c.cr2 &&& ~~~ cr2Fields) ||| val }

/-! ### The driver -/

/-- `i2c_stm32_irq`, `drivers/i2c/busses/i2c-stm32f7.c:474`. -/
def i2cStm32Irq (c : I2cStm32f7) : I2cStm32f7 :=
  if c.isr &&& isrStopf ≠ 0#32 then
    let nack := c.isr &&& isrNackf ≠ 0#32
    let c := c.cr1ClearBits (cr1Errie ||| cr1Stopie)
    let c := if nack then { c with msgStatus := -19 } else c
    let c := if c.msgStatus = -16 then { c with msgStatus := 0 } else c
    let icr := if nack then isrStopf ||| isrNackf else isrStopf
    let c := { c with isr := c.isr &&& ~~~ icr }
    c.cr2SetVal 0#32
  else if c.isr &&& isrTcr ≠ 0#32 then
    let cr2 := c.cr2
    if 255 < c.nbytes then
      let c := { c with nbytes := c.nbytes - 255 }
      c.cr2SetVal (cr2 ||| cr2Nbytes 255)
    else
      let c := { c with nbytes := 0 }
      let cr2 := cr2 ||| cr2Nbytes c.nbytes
      let cr2 := cr2 &&& ~~~ cr2Reload
      let c := c.cr1ClearBits cr1Tcie
      c.cr2SetVal cr2
  else
    let c := c.cr2SetVal cr2Stop
    { c with msgStatus := -5 }

/-- The CR2 value of a message without START; `drivers/i2c/busses/i2c-stm32f7.c:566–595`. -/
def msgCr2 (m : I2cMsg) : BitVec 32 :=
  let cr2 := if 255 < m.len then cr2Nbytes 255 ||| cr2Reload else cr2Nbytes m.len
  let cr2 := cr2 ||| if m.ten then cr2Saddr10 m.addr else cr2Saddr7 m.addr
  let cr2 := if m.rd then cr2 ||| cr2RdWrn else cr2
  cr2 ||| cr2Autoend

/-- The transfer is set up, up to the DMA channel; `drivers/i2c/busses/i2c-stm32f7.c:566–597`. -/
def setup (c : I2cStm32f7) (m : I2cMsg) : I2cStm32f7 :=
  let c := if 255 < m.len then
      let c := { c with nbytes := m.len - 255 }
      c.cr1SetBits cr1Tcie
    else { c with nbytes := 0 }
  { c with msgStatus := -16 }

/-- The interrupts are enabled and START is requested;
`drivers/i2c/busses/i2c-stm32f7.c:622–626`. -/
def start (c : I2cStm32f7) (m : I2cMsg) : I2cStm32f7 :=
  let c := c.cr1SetBits (cr1Errie ||| cr1Stopie)
  c.cr2SetVal (msgCr2 m ||| cr2Start)

/-- The controller has sent the address and asks for data, and DMA is started if there are any;
`drivers/i2c/busses/i2c-stm32f7.c:628–656`. -/
def ready (c : I2cStm32f7) (m : I2cMsg) : I2cStm32f7 :=
  let c := { c with cr2 := c.cr2 &&& ~~~ cr2Start }
  if m.len = 0 then c else c.cr1SetBits (if m.rd then cr1Rxdmaen else cr1Txdmaen)

/-- A transfer that timed out; `drivers/i2c/busses/i2c-stm32f7.c:660–663, 677–680`. -/
def abort (c : I2cStm32f7) : I2cStm32f7 :=
  let c := c.cr1ClearBits (cr1Errie ||| cr1Stopie ||| cr1Tcie)
  c.cr2SetVal 0#32

/-- `drivers/i2c/busses/i2c-stm32f7.c:695`. -/
def cleanupDma (c : I2cStm32f7) : I2cStm32f7 := c.cr1ClearBits (cr1Txdmaen ||| cr1Rxdmaen)

/-! ### The controller -/

/-- NBYTES of a CR2 value. -/
def nbytesOf (cr2 : BitVec 32) : Nat := (cr2.extractLsb' 16 8).toNat

/-- RELOAD of a CR2 value. -/
def reloadOf (cr2 : BitVec 32) : Bool := cr2.getLsbD 24

/-- TCIE is set. -/
def tcie (c : I2cStm32f7) : Bool := c.cr1.getLsbD 6

/-- The chunk with RELOAD is exhausted: TCR is raised and served. -/
def chunkDone (c : I2cStm32f7) : I2cStm32f7 := ({ c with isr := isrTcr } : I2cStm32f7).i2cStm32Irq

/-- STOP was sent, after a NACK or when the last chunk was exhausted: STOPF is raised and served. -/
def stopped (c : I2cStm32f7) (nack : Bool) : I2cStm32f7 :=
  ({ c with isr := if nack then isrStopf ||| isrNackf else isrStopf } : I2cStm32f7).i2cStm32Irq

/-- The chunks that are programmed, and the controller with the last of them. -/
def chunks : Nat → I2cStm32f7 → List (Nat × Bool) × I2cStm32f7
  | 0, c => ([(nbytesOf c.cr2, reloadOf c.cr2)], c)
  | n + 1, c =>
    if reloadOf c.cr2 then
      let r := chunks n c.chunkDone
      ((nbytesOf c.cr2, true) :: r.1, r.2)
    else ([(nbytesOf c.cr2, false)], c)

/-- How a message ends: complete, with a NACK or no interrupt any more after some chunks, the
controller not ready for data in time, or a failure to set up the DMA channel. -/
inductive MsgEnd
  | complete
  | nack (n : Nat)
  | timeout (n : Nat)
  | notReady
  | dmaError
  deriving DecidableEq, Repr

/-- The controller when it has asked for the data of a message. -/
def begun (c : I2cStm32f7) (m : I2cMsg) : I2cStm32f7 := ((c.setup m).start m).ready m

/-- One message: its status and the controller behind it. -/
def message (c : I2cStm32f7) (m : I2cMsg) : MsgEnd → Int × I2cStm32f7
  | .complete =>
    let c := (chunks m.len (c.begun m)).2.stopped false
    (c.msgStatus, c.cleanupDma)
  | .nack n =>
    let c := (chunks n (c.begun m)).2.stopped true
    (c.msgStatus, c.cleanupDma)
  | .timeout n => (-110, (chunks n (c.begun m)).2.abort.cleanupDma)
  | .notReady => (-110, ((c.setup m).start m).abort)
  | .dmaError => (-1, c.setup m)

/-- `i2c_stm32_transfer`, `drivers/i2c/busses/i2c-stm32f7.c:538`, from the message at which `ret` is
the count of those before. -/
def i2cStm32Transfer (c : I2cStm32f7) (ret : Int) : List (I2cMsg × MsgEnd) → Int × I2cStm32f7
  | [] => (ret, c)
  | (m, e) :: ms =>
    -- `DMABUF_SIZE`
    if 1024 < m.len then (if ret = 0 then -22 else ret, c)
    else if e = .dmaError then (-1, (c.message m e).2)
    else if (c.message m e).1 = 0 then i2cStm32Transfer (c.message m e).2 (ret + 1) ms
    else (if ret = 0 then (c.message m e).1 else ret, (c.message m e).2)

/-! ### Fields -/

theorem extract_setVal (c : I2cStm32f7) (val : BitVec 32) :
    (c.cr2SetVal val).cr2.extractLsb' 16 8 = val.extractLsb' 16 8 := by
  have hmask : (~~~ cr2Fields).extractLsb' 16 8 = 0#8 := by decide
  rw [cr2SetVal, BitVec.extractLsb'_or, BitVec.extractLsb'_and, hmask, BitVec.and_zero,
    BitVec.zero_or]

theorem reload_setVal (c : I2cStm32f7) (val : BitVec 32) :
    (c.cr2SetVal val).cr2.getLsbD 24 = val.getLsbD 24 := by
  have hmask : (~~~ cr2Fields).getLsbD 24 = false := by decide
  rw [cr2SetVal, BitVec.getLsbD_or, BitVec.getLsbD_and, hmask, Bool.and_false, Bool.false_or]

theorem extract_nbytes (x : Nat) : (cr2Nbytes x).extractLsb' 16 8 = BitVec.ofNat 8 x := by
  have hlow : (BitVec.ofNat 32 x &&& 0xff#32).toNat = x % 256 := by
    rw [BitVec.toNat_and, BitVec.toNat_ofNat, show (0xff#32).toNat = 2 ^ 8 - 1 from rfl,
      Nat.and_two_pow_sub_one_eq_mod]
    omega
  apply BitVec.eq_of_toNat_eq
  rw [BitVec.extractLsb'_toNat, cr2Nbytes, BitVec.toNat_shiftLeft, hlow, Nat.shiftLeft_eq,
    Nat.shiftRight_eq_div_pow, BitVec.toNat_ofNat]
  omega

theorem extract_saddr (m : I2cMsg) :
    (if m.ten then cr2Saddr10 m.addr else cr2Saddr7 m.addr).extractLsb' 16 8 = 0#8 := by
  have hten : (cr2Saddr10 m.addr).toNat < 65536 := by
    rw [cr2Saddr10, BitVec.toNat_or]
    apply Nat.or_lt_two_pow (n := 16)
    · rw [BitVec.toNat_and]
      exact Nat.lt_of_le_of_lt Nat.and_le_right (by decide)
    · decide
  have hseven : (cr2Saddr7 m.addr).toNat < 65536 := by
    have hlow : (m.addr.setWidth 32 &&& 0x7f#32).toNat ≤ 127 := by
      rw [BitVec.toNat_and]
      exact Nat.and_le_right
    rw [cr2Saddr7, BitVec.toNat_shiftLeft, Nat.shiftLeft_eq]
    omega
  apply BitVec.eq_of_toNat_eq
  rw [BitVec.extractLsb'_toNat, Nat.shiftRight_eq_div_pow]
  split
  next => rw [Nat.div_eq_of_lt hten]; rfl
  next => rw [Nat.div_eq_of_lt hseven]; rfl

theorem reload_nbytes (x : Nat) : (cr2Nbytes x).getLsbD 24 = false := by
  simp [cr2Nbytes]

theorem reload_saddr (m : I2cMsg) :
    (if m.ten then cr2Saddr10 m.addr else cr2Saddr7 m.addr).getLsbD 24 = false := by
  split
  next => simp [cr2Saddr10]
  next => simp [cr2Saddr7]

/-- NBYTES of a message's CR2 value is the length of its first chunk. -/
theorem extract_msgCr2 (m : I2cMsg) :
    (msgCr2 m).extractLsb' 16 8 = BitVec.ofNat 8 (if 255 < m.len then 255 else m.len) := by
  have haddr := extract_saddr m
  have hrd : cr2RdWrn.extractLsb' 16 8 = 0#8 := by decide
  have hend : cr2Autoend.extractLsb' 16 8 = 0#8 := by decide
  have hreload : cr2Reload.extractLsb' 16 8 = 0#8 := by decide
  unfold msgCr2
  generalize (if m.ten then cr2Saddr10 m.addr else cr2Saddr7 m.addr) = addr at haddr
  dsimp only
  by_cases hlen : 255 < m.len
  · rw [if_pos hlen, if_pos hlen]
    split
    next =>
      simp only [BitVec.extractLsb'_or, extract_nbytes, haddr, hrd, hend, hreload, BitVec.or_zero]
    next => simp only [BitVec.extractLsb'_or, extract_nbytes, haddr, hend, hreload, BitVec.or_zero]
  · rw [if_neg hlen, if_neg hlen]
    split
    next => simp only [BitVec.extractLsb'_or, extract_nbytes, haddr, hrd, hend, BitVec.or_zero]
    next => simp only [BitVec.extractLsb'_or, extract_nbytes, haddr, hend, BitVec.or_zero]

theorem reload_msgCr2 (m : I2cMsg) : (msgCr2 m).getLsbD 24 = decide (255 < m.len) := by
  have haddr := reload_saddr m
  have hrd : cr2RdWrn.getLsbD 24 = false := by decide
  have hend : cr2Autoend.getLsbD 24 = false := by decide
  have hreload : cr2Reload.getLsbD 24 = true := by decide
  unfold msgCr2
  generalize (if m.ten then cr2Saddr10 m.addr else cr2Saddr7 m.addr) = addr at haddr
  dsimp only
  by_cases hlen : 255 < m.len
  · rw [if_pos hlen, decide_eq_true hlen]
    split
    next => simp only [BitVec.getLsbD_or, hreload, Bool.or_true, Bool.true_or]
    next => simp only [BitVec.getLsbD_or, hreload, Bool.or_true, Bool.true_or]
  · rw [if_neg hlen, decide_eq_false hlen]
    split
    next => simp only [BitVec.getLsbD_or, reload_nbytes, haddr, hrd, hend, Bool.or_false]
    next => simp only [BitVec.getLsbD_or, reload_nbytes, haddr, hend, Bool.or_false]

/-! ### The first chunk -/

variable (c : I2cStm32f7) (m : I2cMsg)

theorem begun_cr2 : (c.begun m).cr2 = ((c.setup m).cr2SetVal (msgCr2 m ||| cr2Start)).cr2 &&&
    ~~~ cr2Start := by
  unfold begun ready
  dsimp only
  split
  next => rfl
  next => rfl

theorem nbytesOf_begun : nbytesOf (c.begun m).cr2 = if 255 < m.len then 255 else m.len % 256 := by
  have hstart : (~~~ cr2Start).extractLsb' 16 8 = BitVec.allOnes 8 := by decide
  have hbit : cr2Start.extractLsb' 16 8 = 0#8 := by decide
  rw [nbytesOf, begun_cr2, BitVec.extractLsb'_and, hstart, BitVec.and_allOnes, extract_setVal,
    BitVec.extractLsb'_or, hbit, BitVec.or_zero, extract_msgCr2, BitVec.toNat_ofNat]
  split
  next => rfl
  next => rfl

theorem reloadOf_begun : reloadOf (c.begun m).cr2 = decide (255 < m.len) := by
  have hstart : (~~~ cr2Start).getLsbD 24 = true := by decide
  have hbit : cr2Start.getLsbD 24 = false := by decide
  rw [reloadOf, begun_cr2, BitVec.getLsbD_and, hstart, Bool.and_true, reload_setVal,
    BitVec.getLsbD_or, hbit, Bool.or_false, reload_msgCr2]

theorem nbytes_begun : (c.begun m).nbytes = m.len - 255 := by
  have hready : (c.begun m).nbytes = (c.setup m).nbytes := by
    unfold begun ready
    dsimp only
    split
    next => rfl
    next => rfl
  rw [hready, setup]
  split
  next => rfl
  next hlen =>
    dsimp only
    omega

theorem tcie_setBits (mask : BitVec 32) :
    (c.cr1SetBits mask).tcie = (c.tcie || mask.getLsbD 6) := by
  rw [tcie, cr1SetBits, BitVec.getLsbD_or, tcie]

theorem tcie_clearBits (mask : BitVec 32) :
    (c.cr1ClearBits mask).tcie = (c.tcie && !mask.getLsbD 6) := by
  rw [tcie, cr1ClearBits, BitVec.getLsbD_and, BitVec.getLsbD_not, tcie]
  rfl

theorem setup_cr1 : (c.setup m).cr1 = if 255 < m.len then c.cr1 ||| cr1Tcie else c.cr1 := by
  unfold setup cr1SetBits
  split
  next => rfl
  next => rfl

theorem tcie_setup : (c.setup m).tcie = (c.tcie || decide (255 < m.len)) := by
  rw [tcie, setup_cr1, tcie]
  by_cases hlen : 255 < m.len
  · rw [if_pos hlen, decide_eq_true hlen, BitVec.getLsbD_or]
    rfl
  · rw [if_neg hlen, decide_eq_false hlen, Bool.or_false]

theorem tcie_begun : (c.begun m).tcie = (c.tcie || decide (255 < m.len)) := by
  have hstart : ((c.setup m).start m).tcie = (c.setup m).tcie := by
    have hset := tcie_setBits (c.setup m) (cr1Errie ||| cr1Stopie)
    rw [show (cr1Errie ||| cr1Stopie).getLsbD 6 = false by decide, Bool.or_false] at hset
    exact hset
  rw [← tcie_setup, ← hstart, begun, ready]
  split
  next => rfl
  next =>
    rw [tcie_setBits]
    split
    next => exact Bool.or_false _
    next => exact Bool.or_false _

/-! ### The next chunks -/

theorem tcr_not_stopf : ¬ isrTcr &&& isrStopf ≠ 0#32 := by decide

theorem tcr_tcr : isrTcr &&& isrTcr ≠ 0#32 := by decide

/-- Serving TCR while more than a chunk is left programs a full chunk with RELOAD. -/
theorem chunkDone_of_lt (h : 255 < c.nbytes) :
    c.chunkDone = ({ c with isr := isrTcr, nbytes := c.nbytes - 255 } : I2cStm32f7).cr2SetVal
      (c.cr2 ||| cr2Nbytes 255) := by
  unfold chunkDone i2cStm32Irq
  dsimp only
  rw [if_neg tcr_not_stopf, if_pos tcr_tcr, if_pos h]

/-- Serving TCR for the last chunk clears RELOAD and TCIE, and leaves NBYTES as it is. -/
theorem chunkDone_of_le (h : c.nbytes ≤ 255) :
    c.chunkDone = (({ c with isr := isrTcr, nbytes := 0 } : I2cStm32f7).cr1ClearBits
      cr1Tcie).cr2SetVal ((c.cr2 ||| cr2Nbytes 0) &&& ~~~ cr2Reload) := by
  unfold chunkDone i2cStm32Irq
  dsimp only
  rw [if_neg tcr_not_stopf, if_pos tcr_tcr, if_neg (Nat.not_lt.mpr h)]

/-- A full chunk with RELOAD is programmed. -/
structure Full : Prop where
  nbytes : c.cr2.extractLsb' 16 8 = 255#8
  reload : reloadOf c.cr2 = true

variable {c}

theorem Full.chunkDone (hf : c.Full) (h : 255 < c.nbytes) :
    c.chunkDone.Full ∧ c.chunkDone.nbytes = c.nbytes - 255 := by
  rw [chunkDone_of_lt c h]
  refine ⟨⟨?_, ?_⟩, rfl⟩
  · rw [extract_setVal, BitVec.extractLsb'_or, hf.nbytes, extract_nbytes]
    rfl
  · have hreload : c.cr2.getLsbD 24 = true := hf.reload
    rw [reloadOf, reload_setVal, BitVec.getLsbD_or, hreload, Bool.true_or]

/-- The last chunk is programmed with the length of the one before it. -/
theorem Full.chunkDone_last (hf : c.Full) (h : c.nbytes ≤ 255) :
    nbytesOf c.chunkDone.cr2 = 255 ∧ reloadOf c.chunkDone.cr2 = false ∧
      c.chunkDone.tcie = false := by
  have hmask : (~~~ cr2Reload).extractLsb' 16 8 = BitVec.allOnes 8 := by decide
  have hbit : (~~~ cr2Reload).getLsbD 24 = false := by decide
  have htcie := tcie_clearBits ({ c with isr := isrTcr, nbytes := 0 } : I2cStm32f7) cr1Tcie
  rw [show cr1Tcie.getLsbD 6 = true by decide, Bool.not_true, Bool.and_false] at htcie
  rw [chunkDone_of_le c h]
  refine ⟨?_, ?_, htcie⟩
  · rw [nbytesOf, extract_setVal, BitVec.extractLsb'_and, hmask, BitVec.and_allOnes,
      BitVec.extractLsb'_or, hf.nbytes, extract_nbytes]
    rfl
  · rw [reloadOf, reload_setVal, BitVec.getLsbD_and, hbit, Bool.and_false]

theorem chunks_of_not_reload (h : reloadOf c.cr2 = false) (n : Nat) :
    chunks n c = ([(nbytesOf c.cr2, false)], c) := by
  cases n with
  | zero => rw [chunks, h]
  | succ n => rw [chunks, if_neg (by rw [h]; decide)]

/-- From a full chunk on, all chunks are full, as many as it takes for the bytes that are left. -/
theorem Full.chunks (hf : c.Full) {n : Nat} (hpos : 0 < c.nbytes) (hn : c.nbytes ≤ 255 * n) :
    ∃ k, 255 * k < c.nbytes ∧ c.nbytes ≤ 255 * (k + 1) ∧
      (chunks n c).1 = List.replicate (k + 1) (255, true) ++ [(255, false)] ∧
      (chunks n c).2.tcie = false := by
  have hfirst : nbytesOf c.cr2 = 255 := by
    rw [nbytesOf, hf.nbytes]
    rfl
  induction n generalizing c with
  | zero => omega
  | succ n ih =>
    rw [I2cStm32f7.chunks, if_pos hf.reload, hfirst]
    by_cases hlt : 255 < c.nbytes
    · obtain ⟨hnext, hleft⟩ := hf.chunkDone hlt
      have hnb : nbytesOf c.chunkDone.cr2 = 255 := by
        rw [nbytesOf, hnext.nbytes]
        rfl
      obtain ⟨k, hlow, hhigh, hlist, htcie⟩ := ih hnext (by omega) (by omega) hnb
      refine ⟨k + 1, by omega, by omega, ?_, htcie⟩
      dsimp only
      rw [hlist, List.replicate_succ (n := k + 1), List.cons_append]
    · obtain ⟨hnb, hrel, htcie⟩ := hf.chunkDone_last (Nat.le_of_not_lt hlt)
      refine ⟨0, by omega, by omega, ?_, ?_⟩
      · dsimp only
        rw [chunks_of_not_reload hrel, hnb]
        rfl
      · dsimp only
        rw [chunks_of_not_reload hrel]
        exact htcie

/-! ### Whole messages -/

variable (c)

/-- The chunks add up to the message, RELOAD is clear on the last one only, and the message ends
well with TCIE off. -/
structure ChunksOk : Prop where
  sum : ((chunks m.len (c.begun m)).1.map Prod.fst).sum = m.len
  reload : (chunks m.len (c.begun m)).1.map Prod.snd =
    List.replicate ((chunks m.len (c.begun m)).1.length - 1) true ++ [false]
  complete : (c.message m .complete).1 = 0
  tcie : (c.message m .complete).2.tcie = false

/-- STOPF without NACK ends a busy message well and leaves TCIE as it is. -/
theorem stopped_complete (h : c.msgStatus = -16) :
    (c.stopped false).msgStatus = 0 ∧
      (c.stopped false).cr1 = c.cr1 &&& ~~~ (cr1Errie ||| cr1Stopie) := by
  have hstop : isrStopf &&& isrStopf ≠ 0#32 := by decide
  have hnack : ¬ isrStopf &&& isrNackf ≠ 0#32 := by decide
  unfold stopped i2cStm32Irq
  dsimp only
  rw [if_neg Bool.false_ne_true, if_pos hstop, if_neg hnack]
  unfold cr1ClearBits cr2SetVal
  dsimp only
  rw [if_pos h]
  exact ⟨rfl, rfl⟩

theorem chunkDone_msgStatus : c.chunkDone.msgStatus = c.msgStatus := by
  by_cases h : 255 < c.nbytes
  · rw [chunkDone_of_lt c h]
    rfl
  · rw [chunkDone_of_le c (Nat.le_of_not_lt h)]
    rfl

theorem chunks_msgStatus (n : Nat) : (chunks n c).2.msgStatus = c.msgStatus := by
  induction n generalizing c with
  | zero => rfl
  | succ n ih =>
    rw [chunks]
    split
    next => exact (ih c.chunkDone).trans c.chunkDone_msgStatus
    next => rfl

theorem begun_msgStatus : (c.begun m).msgStatus = -16 := by
  unfold begun ready
  dsimp only
  split
  next => rfl
  next => rfl

/-- A message that is not disturbed ends well, with TCIE as the last chunk left it. -/
theorem message_complete :
    (c.message m .complete).1 = 0 ∧
      (c.message m .complete).2.tcie = (chunks m.len (c.begun m)).2.tcie := by
  have hbusy := (chunks_msgStatus (c.begun m) m.len).trans (begun_msgStatus c m)
  obtain ⟨hok, hcr1⟩ := stopped_complete _ hbusy
  apply And.intro hok
  have hirq : (~~~ (cr1Errie ||| cr1Stopie)).getLsbD 6 = true := by decide
  have hdma : (~~~ (cr1Txdmaen ||| cr1Rxdmaen)).getLsbD 6 = true := by decide
  change ((chunks m.len (c.begun m)).2.stopped false).cleanupDma.tcie = _
  rw [tcie, cleanupDma, cr1ClearBits, hcr1, BitVec.getLsbD_and, BitVec.getLsbD_and, hirq, hdma,
    Bool.and_true, Bool.and_true, tcie]

/-- A short message is one chunk. -/
theorem chunks_short (h : m.len ≤ 255) :
    chunks m.len (c.begun m) = ([(m.len, false)], c.begun m) := by
  have hreload : reloadOf (c.begun m).cr2 = false := by
    rw [reloadOf_begun, decide_eq_false (Nat.not_lt.mpr h)]
  rw [chunks_of_not_reload hreload, nbytesOf_begun, if_neg (Nat.not_lt.mpr h),
    Nat.mod_eq_of_lt (by omega)]

/-- A long one is full chunks only. -/
theorem chunks_long (h : 255 < m.len) :
    ∃ k, 255 * (k + 1) < m.len ∧ m.len ≤ 255 * (k + 2) ∧
      (chunks m.len (c.begun m)).1 = List.replicate (k + 1) (255, true) ++ [(255, false)] ∧
      (chunks m.len (c.begun m)).2.tcie = false := by
  have hfull : (c.begun m).Full := by
    constructor
    · apply BitVec.eq_of_toNat_eq
      have hnb := nbytesOf_begun c m
      rw [if_pos h] at hnb
      exact hnb
    · rw [reloadOf_begun, decide_eq_true h]
  have hleft := nbytes_begun c m
  obtain ⟨k, hlow, hhigh, hlist, htcie⟩ := hfull.chunks (n := m.len) (by omega) (by omega)
  exact ⟨k, by omega, by omega, hlist, htcie⟩

end I2cStm32f7

open I2cStm32f7

/-- The chunks are right exactly for messages of one chunk, when TCIE was off before, and for those
that fill their last chunk. -/
theorem i2c_chunks_ok (c : I2cStm32f7) (m : I2cMsg) :
    c.ChunksOk m ↔ (m.len ≤ 255 ∧ c.tcie = false) ∨ (255 < m.len ∧ m.len % 255 = 0) := by
  obtain ⟨hok, hend⟩ := message_complete c m
  by_cases hshort : m.len ≤ 255
  · have hone := chunks_short c m hshort
    rw [hone, tcie_begun, decide_eq_false (Nat.not_lt.mpr hshort), Bool.or_false] at hend
    constructor
    · intro h
      exact .inl ⟨hshort, hend.symm.trans h.tcie⟩
    · rintro (h | h)
      · refine ⟨?_, ?_, hok, hend.trans h.2⟩
        · rw [hone]
          exact Nat.add_zero m.len
        · rw [hone]
          rfl
      · omega
  · obtain ⟨k, hlow, hhigh, hlist, htcie⟩ := chunks_long c m (Nat.lt_of_not_le hshort)
    have hsum : ((chunks m.len (c.begun m)).1.map Prod.fst).sum = 255 * (k + 2) := by
      rw [hlist, List.map_append, List.map_replicate, List.sum_append, List.sum_replicate_nat]
      simp only [List.map_cons, List.map_nil, List.sum_singleton]
      omega
    constructor
    · intro h
      have heq := hsum.symm.trans h.sum
      right
      omega
    · rintro (h | h)
      · omega
      · refine ⟨?_, ?_, hok, hend.trans htcie⟩
        · rw [hsum]
          omega
        · rw [hlist, List.map_append, List.map_replicate, List.length_append, List.length_replicate]
          rfl

/-- The controller after the hardware was initialised: only PE is set. -/
def idleBus : I2cStm32f7 := ⟨1#32, 0#32, 0#32, 0, 0⟩

/-- A write of 256 bytes is programmed as 510. And a message of one byte completes with TCIE set,
if a long one before it was not acknowledged. -/
theorem i2c_chunks_remainder :
    (chunks 256 (idleBus.begun ⟨0x50#16, false, false, 256⟩)).1 = [(255, true), (255, false)] ∧
      ¬ idleBus.ChunksOk ⟨0x50#16, false, false, 256⟩ ∧
      idleBus.i2cStm32Transfer 0 [(⟨0x50#16, false, false, 300⟩, .nack 0)] =
        (-19, ⟨0x41#32, 0#32, 0#32, 45, -19⟩) ∧
      ¬ ChunksOk ⟨0x41#32, 0#32, 0#32, 45, -19⟩ ⟨0x50#16, false, false, 1⟩ := by
  refine ⟨by decide +kernel, fun h => ?_, by decide +kernel, fun h => ?_⟩
  · exact absurd h.sum (by decide +kernel)
  · exact absurd h.tcie (by decide +kernel)

end LinuxStm32.Drivers.I2c
