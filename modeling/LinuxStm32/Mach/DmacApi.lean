import Mathlib.Logic.Function.Basic

/-!
# The driver of the DMA controllers

Model of `arch/arm/mach-stm32/dmac.c:60–664`: the records of the 16 channels, the registers of
the two controllers and the calls that drivers make. Each call runs under the lock of its
channel, so a call is one step. A write to a flag clear register clears the flags it names in
the status register; `ifcr` is a history of these writes.

Handlers are known by a number, and a handler given to the driver is never `NULL`; the data
passed to it is a word, 0 for `NULL`. A channel without handler has no data for one.
-/

namespace LinuxStm32.Mach

/-- `struct stm32_dma_ch_regs`, `mach/dmaregs.h:124`. -/
structure DmaChRegs where
  cr : BitVec 32
  ndtr : BitVec 32
  par : BitVec 32
  m0ar : BitVec 32
  m1ar : BitVec 32
  fcr : BitVec 32
  deriving DecidableEq, Repr

/-- `struct dma_ch_priv`, `arch/arm/mach-stm32/dmac.c:62`. -/
structure DmaChPriv where
  inUse : Bool
  irqHandler : Option Nat
  irqData : Nat
  data_of_none : irqHandler = none → irqData = 0

/-- A channel as it is before anything is registered for it. -/
theorem noHandler_noData : (none : Option Nat) = none → (0 : Nat) = 0 := fun _ => rfl

/-- The driver's records and the controllers' registers. A controller is known by whether it is
the second; a status register by its controller and whether it is the high one. -/
structure Dmac where
  dmaCh : Nat → DmaChPriv
  s : Bool → Nat → DmaChRegs
  isr : Bool → Bool → BitVec 32
  ifcr : List (Bool × Bool × BitVec 32)

/-! ### Registers -/

/-- `STM32_DMA_CR_EN`. -/
def crEn : BitVec 32 := 1#32

/-- `STM32_DMA_CR_HTIE`. -/
def crHtie : BitVec 32 := 8#32

/-- `STM32_DMA_CR_TCIE`. -/
def crTcie : BitVec 32 := 16#32

/-- All flags of a channel: `TC`, `HT`, `TE`, `DME` and `FE`. -/
def irqfAll : BitVec 32 := 0x3D#32

/-- The controller of a channel. -/
def second (ch : Nat) : Bool := !decide (ch < 8)

/-- Which status and flag clear register of its controller a channel has. -/
def high (ch : Nat) : Bool := ch.testBit 2

/-- Where the flags of a channel are: `((ch & 2) << 3) | ((ch & 1) * 6)`. -/
def flagShift (ch : Nat) : Nat := ((ch &&& 2) <<< 3) ||| ((ch &&& 1) * 6)

namespace Dmac

variable (d : Dmac)

/-- `dma_ch_regs`, `arch/arm/mach-stm32/dmac.c:82`. -/
def regs (ch : Nat) : DmaChRegs := d.s (second ch) (ch % 8)

/-- Write the registers of a channel. -/
def setRegs (ch : Nat) (r : DmaChRegs) : Dmac :=
  { d with s := Function.update d.s (second ch) (Function.update (d.s (second ch)) (ch % 8) r) }

/-- Write the record of a channel. -/
def setCh (ch : Nat) (p : DmaChPriv) : Dmac := { d with dmaCh := Function.update d.dmaCh ch p }

/-- The interrupt flags of a channel. -/
def flags (ch : Nat) : BitVec 32 := (d.isr (second ch) (high ch) >>> flagShift ch) &&& irqfAll

/-- `stm32_dma_clear_irq_flags`, `arch/arm/mach-stm32/dmac.c:92`. -/
def clearIrqFlags (ch : Nat) (flags : BitVec 32) : Dmac :=
  let v := flags <<< flagShift ch
  { d with
    isr := Function.update d.isr (second ch)
      (Function.update (d.isr (second ch)) (high ch) (d.isr (second ch) (high ch) &&& ~~~v))
    ifcr := (second ch, high ch, v) :: d.ifcr }

/-! ### Calls -/

/-- `stm32_dma_ch_valid`. -/
def chValid (ch : Int) : Bool := decide (0 ≤ ch) && decide (ch < 16)

/-- `stm32_dma_ch_get`, `arch/arm/mach-stm32/dmac.c:159`. -/
def chGet (ch : Int) : Int × Dmac :=
  if chValid ch then
    let p := d.dmaCh ch.toNat
    (if p.inUse then -16 else 0, d.setCh ch.toNat { p with inUse := true })
  else (-22, d)

/-- `stm32_dma_ch_put`, `arch/arm/mach-stm32/dmac.c:187`. -/
def chPut (ch : Int) : Int × Dmac :=
  if chValid ch then
    let p := d.dmaCh ch.toNat
    (if p.inUse then 0 else -16, d.setCh ch.toNat { p with inUse := false })
  else (-22, d)

/-- `DMAAPI_LOCKED_BEGIN`: the channel must exist and be acquired. -/
def locked (ch : Int) (body : Nat → Int × Dmac) : Int × Dmac :=
  if chValid ch then
    if (d.dmaCh ch.toNat).inUse then body ch.toNat else (-19, d)
  else (-22, d)

/-- Clear the enable bit of a channel. -/
def clearEn (n : Nat) : Dmac := d.setRegs n { d.regs n with cr := (d.regs n).cr &&& ~~~crEn }

/-- `__stm32_dma_ch_enable`, `arch/arm/mach-stm32/dmac.c:246`. -/
def chEnable (ch : Int) (enable : Bool) : Int × Dmac :=
  d.locked ch fun n =>
    if enable then
      let d := d.clearIrqFlags n irqfAll
      (0, d.setRegs n { d.regs n with cr := (d.regs n).cr ||| crEn })
    else (0, d.clearEn n)

/-- Set or clear bits of a word. -/
def setBits (w mask : BitVec 32) (on : Bool) : BitVec 32 :=
  if on then w ||| mask else w &&& ~~~mask

/-- The interrupt enables that the flags of `stm32_dma_ch_request_irq` ask for. -/
def irqEnables (cr flags : BitVec 32) : BitVec 32 :=
  setBits (setBits cr crTcie (flags.getLsbD 0)) crHtie (flags.getLsbD 1)

/-- `stm32_dma_ch_request_irq`, `arch/arm/mach-stm32/dmac.c:312`. `rv` is what `request_irq`
returns. -/
def chRequestIrq (ch : Int) (handler : Nat) (flags : BitVec 32) (data : Nat) (rv : Int) :
    Int × Dmac :=
  d.locked ch fun n =>
    match (d.dmaCh n).irqHandler with
    | some _ => (-17, d)
    | none =>
      if rv = 0 then
        let d := d.setCh n ⟨(d.dmaCh n).inUse, some handler, data, fun h => nomatch h⟩
        (0, d.setRegs n { d.regs n with cr := irqEnables (d.regs n).cr flags })
      else (rv, d.setCh n ⟨(d.dmaCh n).inUse, none, 0, fun _ => rfl⟩)

/-- `stm32_dma_ch_free_irq`, `arch/arm/mach-stm32/dmac.c:389`. -/
def chFreeIrq (ch : Int) (data : Nat) : Int × Dmac :=
  d.locked ch fun n =>
    if (d.dmaCh n).irqData ≠ data then (-22, d)
    else match (d.dmaCh n).irqHandler with
      | none => (-22, d)
      | some _ =>
        let d := d.setCh n ⟨(d.dmaCh n).inUse, none, 0, fun _ => rfl⟩
        (0, d.setRegs n { d.regs n with cr := (d.regs n).cr &&& ~~~(crTcie ||| crHtie) })

/-- What the configuration calls have in common: bad arguments and enabled channels are
refused. -/
def configure (ch : Int) (argsOk : Bool) (f : DmaChRegs → DmaChRegs) : Int × Dmac :=
  d.locked ch fun n =>
    if argsOk = false then (-22, d)
    else if (d.regs n).cr &&& crEn ≠ 0#32 then (-16, d)
    else (0, d.setRegs n (f (d.regs n)))

end Dmac

/-- The registers after `stm32_dma_ch_init`. The mask has all fields of the control register but
`CHSEL`, `TCIE`, `HTIE` and the error interrupts. -/
def initRegs (dir fpctrl pl dbm circ : BitVec 8) (r : DmaChRegs) : DmaChRegs where
  cr := (r.cr &&& ~~~0x1EFFFE0#32) ||| (dir.setWidth 32 <<< 6) ||| (fpctrl.setWidth 32 <<< 5) |||
    (pl.setWidth 32 <<< 16) ||| (dbm.setWidth 32 <<< 18) ||| (circ.setWidth 32 <<< 8)
  ndtr := 0
  par := 0
  m0ar := 0
  m1ar := 0
  fcr := 0

namespace Dmac

variable (d : Dmac)

/-- `stm32_dma_ch_init`, `arch/arm/mach-stm32/dmac.c:463`. -/
def chInit (ch : Int) (dir fpctrl pl dbm circ : BitVec 8) : Int × Dmac :=
  d.configure ch (dir ≤ 2 && fpctrl ≤ 1 && pl ≤ 3 && dbm ≤ 1 && circ ≤ 1)
    (initRegs dir fpctrl pl dbm circ)

/-- `stm32_dma_ch_init_fifo`, `arch/arm/mach-stm32/dmac.c:524`. -/
def chInitFifo (ch : Int) (burst threshold : BitVec 8) : Int × Dmac :=
  d.configure ch (burst ≤ 1 && threshold ≤ 3) fun r =>
    { r with fcr := (r.fcr &&& ~~~7#32) ||| (burst.setWidth 32 <<< 2) ||| threshold.setWidth 32 }

/-- `stm32_dma_ch_set_periph`, `arch/arm/mach-stm32/dmac.c:566`. -/
def chSetPeriph (ch : Int) (addr : BitVec 32) (inc bitwidth burst : BitVec 8) : Int × Dmac :=
  d.configure ch (inc ≤ 1 && bitwidth ≤ 3 && burst ≤ 3) fun r =>
    { r with
      par := addr
      cr := (r.cr &&& ~~~0x601A00#32) ||| (inc.setWidth 32 <<< 9) |||
        (bitwidth.setWidth 32 <<< 11) ||| (burst.setWidth 32 <<< 21) }

/-- `stm32_dma_ch_set_memory`, `arch/arm/mach-stm32/dmac.c:610`. -/
def chSetMemory (ch : Int) (addr : BitVec 32) (inc bitwidth burst : BitVec 8) : Int × Dmac :=
  d.configure ch (inc ≤ 1 && bitwidth ≤ 3 && burst ≤ 3) fun r =>
    { r with
      m0ar := addr
      cr := (r.cr &&& ~~~0x1806400#32) ||| (inc.setWidth 32 <<< 10) |||
        (bitwidth.setWidth 32 <<< 13) ||| (burst.setWidth 32 <<< 23) }

/-- `stm32_dma_ch_set_nitems`, `arch/arm/mach-stm32/dmac.c:644`. -/
def chSetNitems (ch : Int) (nitems : BitVec 16) : Int × Dmac :=
  d.configure ch true fun r => { r with ndtr := nitems.setWidth 32 }

end Dmac

/-- A call of the driver. -/
inductive DmaCall
  | get (ch : Int)
  | put (ch : Int)
  | enable (ch : Int)
  | disable (ch : Int)
  | requestIrq (ch : Int) (handler : Nat) (flags : BitVec 32) (data : Nat) (rv : Int)
  | freeIrq (ch : Int) (data : Nat)
  | init (ch : Int) (dir fpctrl pl dbm circ : BitVec 8)
  | initFifo (ch : Int) (burst threshold : BitVec 8)
  | setPeriph (ch : Int) (addr : BitVec 32) (inc bitwidth burst : BitVec 8)
  | setMemory (ch : Int) (addr : BitVec 32) (inc bitwidth burst : BitVec 8)
  | setNitems (ch : Int) (nitems : BitVec 16)
  deriving DecidableEq, Repr

/-- The channel a call is about. -/
def DmaCall.ch : DmaCall → Int
  | .get ch | .put ch | .enable ch | .disable ch | .requestIrq ch .. | .freeIrq ch _ | .init ch ..
  | .initFifo ch .. | .setPeriph ch .. | .setMemory ch .. | .setNitems ch _ => ch

/-- The calls that configure a channel. -/
def DmaCall.configures : DmaCall → Bool
  | .init .. | .initFifo .. | .setPeriph .. | .setMemory .. | .setNitems .. => true
  | _ => false

/-- What a call returns and does. -/
def Dmac.call (d : Dmac) : DmaCall → Int × Dmac
  | .get ch => d.chGet ch
  | .put ch => d.chPut ch
  | .enable ch => d.chEnable ch true
  | .disable ch => d.chEnable ch false
  | .requestIrq ch handler flags data rv => d.chRequestIrq ch handler flags data rv
  | .freeIrq ch data => d.chFreeIrq ch data
  | .init ch dir fpctrl pl dbm circ => d.chInit ch dir fpctrl pl dbm circ
  | .initFifo ch burst threshold => d.chInitFifo ch burst threshold
  | .setPeriph ch addr inc bitwidth burst => d.chSetPeriph ch addr inc bitwidth burst
  | .setMemory ch addr inc bitwidth burst => d.chSetMemory ch addr inc bitwidth burst
  | .setNitems ch nitems => d.chSetNitems ch nitems

/-! ### What a call does -/

namespace Dmac

variable {d : Dmac} {n m : Nat}

theorem regs_setRegs_self (d : Dmac) (n : Nat) (r : DmaChRegs) : (d.setRegs n r).regs n = r := by
  simp [regs, setRegs]

/-- The 16 channels have different registers. -/
theorem regs_setRegs_of_ne (hn : n < 16) (hm : m < 16) (h : m ≠ n) (d : Dmac) (r : DmaChRegs) :
    (d.setRegs n r).regs m = d.regs m := by
  simp only [regs, setRegs]
  by_cases hs : second m = second n
  · have hmod : m % 8 ≠ n % 8 := by
      have hiff : m < 8 ↔ n < 8 := by simpa [second] using hs
      omega
    rw [hs, Function.update_self, Function.update_of_ne hmod]
  · rw [Function.update_of_ne hs]

theorem dmaCh_setCh_of_ne (h : m ≠ n) (d : Dmac) (p : DmaChPriv) :
    (d.setCh n p).dmaCh m = d.dmaCh m :=
  Function.update_of_ne h _ _

theorem dmaCh_setCh_self (d : Dmac) (n : Nat) (p : DmaChPriv) : (d.setCh n p).dmaCh n = p :=
  Function.update_self _ _ _

/-- A call about an acquired channel is carried out. -/
theorem locked_of_inUse (hn : n < 16) (hu : (d.dmaCh n).inUse = true) (body : Nat → Int × Dmac) :
    d.locked n body = body n := by
  have hv : chValid n = true := by
    simp only [chValid, Bool.and_eq_true, decide_eq_true_eq]
    omega
  rw [locked, if_pos hv, Int.toNat_natCast, if_pos hu]

/-- The flags of two channels in one register are different bits. -/
private theorem flags_apart : ∀ n < 16, ∀ m < 16, m ≠ n → second m = second n →
    high m = high n → (~~~(irqfAll <<< flagShift n) >>> flagShift m) &&& irqfAll = irqfAll := by
  decide +kernel

/-- Clearing the flags of a channel keeps those of the others. -/
theorem flags_clearIrqFlags_of_ne (hn : n < 16) (hm : m < 16) (h : m ≠ n) (d : Dmac) :
    (d.clearIrqFlags n irqfAll).flags m = d.flags m := by
  simp only [flags, clearIrqFlags]
  by_cases hs : second m = second n
  · by_cases hh : high m = high n
    · rw [hs, hh, Function.update_self, Function.update_self, BitVec.ushiftRight_and_distrib,
        BitVec.and_assoc, flags_apart n hn m hm h hs hh]
    · rw [hs, Function.update_self, Function.update_of_ne hh]
  · rw [Function.update_of_ne hs]

end Dmac

/-- The cases of a call: it fails and changes nothing, or the channel exists and one thing is
done to it. -/
inductive DmaCase (d : Dmac) : DmaCall → Int × Dmac → Prop
  | kept (c : DmaCall) (rv : Int) (h : rv ≠ 0) : DmaCase d c (rv, d)
  | get (n : Nat) (hn : n < 16) (hu : (d.dmaCh n).inUse = false) :
    DmaCase d (.get n) (0, d.setCh n { d.dmaCh n with inUse := true })
  | put (n : Nat) (hn : n < 16) (hu : (d.dmaCh n).inUse = true) :
    DmaCase d (.put n) (0, d.setCh n { d.dmaCh n with inUse := false })
  | enable (n : Nat) (hn : n < 16) (hu : (d.dmaCh n).inUse = true) :
    DmaCase d (.enable n) (0, (d.clearIrqFlags n irqfAll).setRegs n
      { d.regs n with cr := (d.regs n).cr ||| crEn })
  | disable (n : Nat) (hn : n < 16) (hu : (d.dmaCh n).inUse = true) :
    DmaCase d (.disable n) (0, d.setRegs n { d.regs n with cr := (d.regs n).cr &&& ~~~crEn })
  | requestIrq (n : Nat) (hn : n < 16) (hu : (d.dmaCh n).inUse = true)
      (hh : (d.dmaCh n).irqHandler = none) (handler : Nat) (flags : BitVec 32) (data : Nat) :
    DmaCase d (.requestIrq n handler flags data 0)
      (0, (d.setCh n ⟨true, some handler, data, fun h => nomatch h⟩).setRegs n
        { d.regs n with cr := Dmac.irqEnables (d.regs n).cr flags })
  | freeIrq (n : Nat) (hn : n < 16) (hu : (d.dmaCh n).inUse = true) (data : Nat) :
    DmaCase d (.freeIrq n data) (0, (d.setCh n ⟨true, none, 0, fun _ => rfl⟩).setRegs n
      { d.regs n with cr := (d.regs n).cr &&& ~~~(crTcie ||| crHtie) })
  | configure (c : DmaCall) (hk : c.configures = true) (n : Nat) (hc : c.ch = n) (hn : n < 16)
      (hu : (d.dmaCh n).inUse = true) (he : (d.regs n).cr &&& crEn = 0#32) (r : DmaChRegs)
      (hr : r.cr &&& crEn = 0#32) : DmaCase d c (0, d.setRegs n r)

namespace Dmac

variable {d : Dmac}

private theorem chValid_cases (ch : Int) :
    (∃ n : Nat, n < 16 ∧ ch = n ∧ chValid ch = true ∧ ch.toNat = n) ∨ chValid ch = false := by
  by_cases h : 0 ≤ ch ∧ ch < 16
  · refine .inl ⟨ch.toNat, by omega, by omega, ?_, rfl⟩
    simp [chValid, h]
  · refine .inr ?_
    simp only [chValid, Bool.and_eq_false_iff, decide_eq_false_iff_not]
    omega

/-- A refused call changes nothing; otherwise the channel exists and is acquired. -/
private theorem locked_case {c : DmaCall} {body : Nat → Int × Dmac}
    (h : ∀ n : Nat, n < 16 → c.ch = n → (d.dmaCh n).inUse = true → DmaCase d c (body n)) :
    DmaCase d c (d.locked c.ch body) := by
  rw [locked]
  rcases chValid_cases c.ch with ⟨n, hn, hc, hv, ht⟩ | hv
  · rw [if_pos hv, ht]
    split
    · next hu => exact h n hn hc hu
    · exact .kept c _ (by decide)
  · rw [if_neg (by rw [hv]; decide)]
    exact .kept c _ (by decide)

private theorem configure_case {c : DmaCall} {argsOk : Bool} {f : DmaChRegs → DmaChRegs}
    (hk : c.configures = true) (hf : ∀ r, r.cr &&& crEn = 0#32 → (f r).cr &&& crEn = 0#32) :
    DmaCase d c (d.configure c.ch argsOk f) := by
  refine locked_case fun n hn hc hu => ?_
  split
  · exact .kept c _ (by decide)
  · split
    · exact .kept c _ (by decide)
    · next he =>
      have he' := Decidable.not_not.mp he
      exact .configure c hk n hc hn hu he' _ (hf _ he')

private theorem and_and_crEn {w : BitVec 32} (k : BitVec 32) (h : w &&& crEn = 0#32) :
    (w &&& k) &&& crEn = 0#32 := by
  rw [BitVec.and_assoc, BitVec.and_comm k, ← BitVec.and_assoc, h, BitVec.zero_and]

/-- Fields above the enable bit do not touch it. -/
private theorem shl_and_crEn (x : BitVec 32) {i : Nat} (hi : 0 < i) :
    (x <<< i) &&& crEn = 0#32 := by
  apply BitVec.eq_of_getLsbD_eq
  intro j hj
  rw [BitVec.getLsbD_and, BitVec.getLsbD_shiftLeft]
  cases j with
  | zero => simp [hi]
  | succ j => simp [crEn, BitVec.getLsbD_one]

private theorem or_and_crEn {x y : BitVec 32} (hx : x &&& crEn = 0#32) (hy : y &&& crEn = 0#32) :
    (x ||| y) &&& crEn = 0#32 := by
  rw [BitVec.and_or_distrib_right, hx, hy]
  rfl

/-- Nor do three fields that a call writes. -/
theorem fields_en {w x y z k : BitVec 32} {i j l : Nat} (h : w &&& crEn = 0#32)
    (hi : 0 < i ∧ 0 < j ∧ 0 < l) :
    ((w &&& k) ||| x <<< i ||| y <<< j ||| z <<< l) &&& crEn = 0#32 :=
  or_and_crEn (or_and_crEn (or_and_crEn (and_and_crEn _ h) (shl_and_crEn _ hi.1))
    (shl_and_crEn _ hi.2.1)) (shl_and_crEn _ hi.2.2)

theorem initRegs_en (dir fpctrl pl dbm circ : BitVec 8) {r : DmaChRegs}
    (h : r.cr &&& crEn = 0#32) : (initRegs dir fpctrl pl dbm circ r).cr &&& crEn = 0#32 := by
  refine or_and_crEn (or_and_crEn (fields_en h (by decide)) ?_) ?_ <;>
    exact shl_and_crEn _ (by decide)

/-- A channel that can be configured. -/
structure Idle (d : Dmac) (n : Nat) : Prop where
  inUse : (d.dmaCh n).inUse = true
  en : (d.regs n).cr &&& crEn = 0#32

/-- A configuration call with good arguments succeeds, and the next one can follow. -/
theorem Idle.configure {n : Nat} {f : DmaChRegs → DmaChRegs} {argsOk : Bool} (h : d.Idle n)
    (hn : n < 16) (hok : argsOk = true)
    (hf : ∀ r, r.cr &&& crEn = 0#32 → (f r).cr &&& crEn = 0#32) :
    ∃ d', d.configure n argsOk f = (0, d') ∧ d'.Idle n ∧ d'.regs n = f (d.regs n) := by
  have hregs := d.regs_setRegs_self n (f (d.regs n))
  refine ⟨d.setRegs n (f (d.regs n)), ?_, ⟨h.inUse, ?_⟩, hregs⟩
  · rw [Dmac.configure, locked_of_inUse hn h.inUse, if_neg (by rw [hok]; decide),
      if_neg (not_not_intro h.en)]
  · rw [hregs]
    exact hf _ h.en

/-- A call is one of the cases. -/
theorem call_case (d : Dmac) (c : DmaCall) : DmaCase d c (d.call c) := by
  cases c with
  | get ch =>
    rw [call, chGet]
    rcases chValid_cases ch with ⟨n, hn, rfl, hv, ht⟩ | hv
    · rw [if_pos hv, ht]
      dsimp only
      cases hu : (d.dmaCh n).inUse with
      | false => exact .get n hn hu
      | true =>
        have he : d.setCh n { d.dmaCh n with inUse := true } = d := by
          rw [← hu, setCh, Function.update_eq_self]
        rw [he]
        exact .kept _ _ (by decide)
    · rw [if_neg (by rw [hv]; decide)]
      exact .kept _ _ (by decide)
  | put ch =>
    rw [call, chPut]
    rcases chValid_cases ch with ⟨n, hn, rfl, hv, ht⟩ | hv
    · rw [if_pos hv, ht]
      dsimp only
      cases hu : (d.dmaCh n).inUse with
      | true => exact .put n hn hu
      | false =>
        have he : d.setCh n { d.dmaCh n with inUse := false } = d := by
          rw [← hu, setCh, Function.update_eq_self]
        rw [he]
        exact .kept _ _ (by decide)
    · rw [if_neg (by rw [hv]; decide)]
      exact .kept _ _ (by decide)
  | enable ch =>
    rw [call, chEnable]
    refine locked_case (c := .enable ch) fun n hn hc hu => ?_
    cases hc
    exact .enable n hn hu
  | disable ch =>
    rw [call, chEnable]
    refine locked_case (c := .disable ch) fun n hn hc hu => ?_
    cases hc
    exact .disable n hn hu
  | requestIrq ch handler flags data rv =>
    rw [call, chRequestIrq]
    refine locked_case (c := .requestIrq ch handler flags data rv) fun n hn hc hu => ?_
    cases hc
    split
    · exact .kept _ _ (by decide)
    · next hh =>
      split
      · next h0 =>
        rw [h0, hu]
        exact .requestIrq n hn hu hh handler flags data
      · next h0 =>
        have he : d.setCh n ⟨(d.dmaCh n).inUse, none, 0, fun _ => rfl⟩ = d := by
          have hp : (⟨(d.dmaCh n).inUse, none, 0, fun _ => rfl⟩ : DmaChPriv) = d.dmaCh n := by
            have hd := (d.dmaCh n).data_of_none hh
            generalize d.dmaCh n = p at hh hd
            cases p
            subst hh hd
            rfl
          rw [hp, setCh, Function.update_eq_self]
        rw [he]
        exact .kept _ _ h0
  | freeIrq ch data =>
    rw [call, chFreeIrq]
    refine locked_case (c := .freeIrq ch data) fun n hn hc hu => ?_
    cases hc
    split
    · exact .kept _ _ (by decide)
    · split
      · exact .kept _ _ (by decide)
      · rw [hu]
        exact .freeIrq n hn hu data
  | init ch dir fpctrl pl dbm circ =>
    rw [call, chInit]
    exact configure_case (c := .init ch dir fpctrl pl dbm circ) rfl
      fun r h => initRegs_en _ _ _ _ _ h
  | initFifo ch burst threshold =>
    rw [call, chInitFifo]
    refine configure_case (c := .initFifo ch burst threshold) rfl fun r h => ?_
    exact h
  | setPeriph ch addr inc bitwidth burst =>
    rw [call, chSetPeriph]
    exact configure_case (c := .setPeriph ch addr inc bitwidth burst) rfl fun r h =>
      fields_en h (by decide)
  | setMemory ch addr inc bitwidth burst =>
    rw [call, chSetMemory]
    exact configure_case (c := .setMemory ch addr inc bitwidth burst) rfl fun r h =>
      fields_en h (by decide)
  | setNitems ch nitems =>
    rw [call, chSetNitems]
    refine configure_case (c := .setNitems ch nitems) rfl fun r h => ?_
    exact h

end Dmac

/-! ### Atomicity and isolation -/

/-- The registers of a channel without `EN`, `TCIE` and `HTIE`. -/
def DmaChRegs.config (r : DmaChRegs) : DmaChRegs :=
  { r with cr := r.cr &&& ~~~(crEn ||| crTcie ||| crHtie) }

private theorem and_not_of_or (w : BitVec 32) {k x : BitVec 32} (h : x &&& ~~~k = 0#32) :
    (w ||| x) &&& ~~~k = w &&& ~~~k := by
  rw [BitVec.and_or_distrib_right, h, BitVec.or_zero]

private theorem and_not_of_and (w : BitVec 32) {k x : BitVec 32} (h : ~~~x &&& ~~~k = ~~~k) :
    (w &&& ~~~x) &&& ~~~k = w &&& ~~~k := by
  rw [BitVec.and_assoc, h]

private theorem config_irqEnables (w flags : BitVec 32) :
    Dmac.irqEnables w flags &&& ~~~(crEn ||| crTcie ||| crHtie) =
      w &&& ~~~(crEn ||| crTcie ||| crHtie) := by
  have hset : ∀ v x : BitVec 32, ∀ on, x &&& ~~~(crEn ||| crTcie ||| crHtie) = 0#32 →
      ~~~x &&& ~~~(crEn ||| crTcie ||| crHtie) = ~~~(crEn ||| crTcie ||| crHtie) →
      Dmac.setBits v x on &&& ~~~(crEn ||| crTcie ||| crHtie) =
        v &&& ~~~(crEn ||| crTcie ||| crHtie) := by
    intro v x on h1 h2
    cases on with
    | true => exact and_not_of_or v h1
    | false => exact and_not_of_and v h2
  rw [Dmac.irqEnables, hset _ crHtie _ (by decide) (by decide),
    hset _ crTcie _ (by decide) (by decide)]

/-- What a call may change. -/
structure Dmac.CallOk (d : Dmac) (c : DmaCall) : Prop where
  atomic : (d.call c).1 < 0 → (d.call c).2 = d
  other : ∀ m : Nat, m < 16 → (m : Int) ≠ c.ch → (d.call c).2.dmaCh m = d.dmaCh m ∧
    (d.call c).2.regs m = d.regs m ∧ (d.call c).2.flags m = d.flags m
  ifcr : (d.call c).2.ifcr = d.ifcr ∨ ∃ n : Nat, n < 16 ∧ c.ch = n ∧
    (d.call c).2.ifcr = (second n, high n, irqfAll <<< flagShift n) :: d.ifcr
  config : ∀ m : Nat, m < 16 → ((d.call c).2.regs m).config ≠ (d.regs m).config →
    (d.dmaCh m).inUse = true ∧ (d.regs m).cr &&& crEn = 0#32

namespace Dmac

variable {d : Dmac}

/-- A change of one channel's registers that keeps its configuration keeps all of them. -/
private theorem config_setRegs {n m : Nat} {r : DmaChRegs} (hn : n < 16) (hm : m < 16)
    (hr : r.config = (d.regs n).config) :
    ((d.setRegs n r).regs m).config = (d.regs m).config := by
  by_cases h : m = n
  · rw [h, regs_setRegs_self]
    exact hr
  · rw [regs_setRegs_of_ne hn hm h]

private theorem ne_of_cast {n m : Nat} (h : (m : Int) ≠ n) : m ≠ n := fun he => h (by rw [he])

/-- A call that fails changes nothing. A call changes nothing of another channel, writes only
its own flags to the shared registers, and configures only an acquired, disabled channel. -/
theorem dma_call_ok (d : Dmac) (c : DmaCall) : d.CallOk c := by
  have hcase := d.call_case c
  generalize hres : d.call c = res at hcase
  have hfst : (d.call c).1 = res.1 := by rw [hres]
  have hsnd : (d.call c).2 = res.2 := by rw [hres]
  constructor
  · rw [hfst, hsnd]
    intro hneg
    cases hcase with
    | kept => rfl
    | _ => exact absurd hneg (Int.lt_irrefl 0)
  · intro m hm hne
    rw [hsnd]
    cases hcase with
    | kept => exact ⟨rfl, rfl, rfl⟩
    | get n hn _ => exact ⟨dmaCh_setCh_of_ne (ne_of_cast hne) d _, rfl, rfl⟩
    | put n hn _ => exact ⟨dmaCh_setCh_of_ne (ne_of_cast hne) d _, rfl, rfl⟩
    | enable n hn _ =>
      exact ⟨rfl, regs_setRegs_of_ne hn hm (ne_of_cast hne) _ _,
        flags_clearIrqFlags_of_ne hn hm (ne_of_cast hne) d⟩
    | disable n hn _ => exact ⟨rfl, regs_setRegs_of_ne hn hm (ne_of_cast hne) _ _, rfl⟩
    | requestIrq n hn _ _ _ _ _ =>
      exact ⟨dmaCh_setCh_of_ne (ne_of_cast hne) d _,
        regs_setRegs_of_ne hn hm (ne_of_cast hne) _ _, rfl⟩
    | freeIrq n hn _ _ =>
      exact ⟨dmaCh_setCh_of_ne (ne_of_cast hne) d _,
        regs_setRegs_of_ne hn hm (ne_of_cast hne) _ _, rfl⟩
    | configure _ _ n hc hn _ _ r _ =>
      rw [hc] at hne
      exact ⟨rfl, regs_setRegs_of_ne hn hm (ne_of_cast hne) _ _, rfl⟩
  · rw [hsnd]
    cases hcase with
    | enable n hn _ => exact .inr ⟨n, hn, rfl, rfl⟩
    | _ => exact .inl rfl
  · intro m hm hcfg
    rw [hsnd] at hcfg
    cases hcase with
    | kept => exact absurd rfl hcfg
    | get n hn _ => exact absurd rfl hcfg
    | put n hn _ => exact absurd rfl hcfg
    | enable n hn _ =>
      refine absurd (config_setRegs (d := d.clearIrqFlags n irqfAll) hn hm ?_) hcfg
      rw [DmaChRegs.config, and_not_of_or _ (by decide)]
      rfl
    | disable n hn _ =>
      refine absurd (config_setRegs hn hm ?_) hcfg
      rw [DmaChRegs.config, and_not_of_and _ (by decide)]
      rfl
    | requestIrq n hn _ _ handler flags data =>
      refine absurd (config_setRegs
        (d := d.setCh n ⟨true, some handler, data, fun h => nomatch h⟩) hn hm ?_) hcfg
      rw [DmaChRegs.config, config_irqEnables]
      rfl
    | freeIrq n hn _ _ =>
      refine absurd (config_setRegs (d := d.setCh n ⟨true, none, 0, fun _ => rfl⟩) hn hm ?_) hcfg
      rw [DmaChRegs.config, and_not_of_and _ (by decide)]
      rfl
    | configure _ _ n hc hn hu he r _ =>
      by_cases h : m = n
      · rw [h]
        exact ⟨hu, he⟩
      · rw [regs_setRegs_of_ne hn hm h] at hcfg
        exact absurd rfl hcfg

end Dmac
end LinuxStm32.Mach
