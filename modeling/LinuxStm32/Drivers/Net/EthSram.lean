import LinuxStm32.Base.System
import LinuxStm32.Base.Word
import Mathlib.Algebra.Order.Ring.Int

/-!
# SRAM buffers of the Ethernet driver

`drivers/net/arm/stm32_eth.c:580–662, 1043–1143` with `STM32_SRAM`. Descriptors and frame
buffers are cut off a bump pointer when the device is opened; closing it, or an open that
fails, moves the pointer back by one closed formula. A `BUG_ON` stops the machine: the
operation has no result then. The outcomes of `stm32_eth_hw_start` and `request_irq` are
arguments.
-/

namespace LinuxStm32.Drivers.Net

open Base

/-- `SRAM_PHYS_OFFSET + SRAM_PHYS_SIZE`, `arch/arm/mach-stm32/include/mach/memory.h:32`. -/
def sramEnd : Nat := 0x20000000 + 0x00020000

/-- `sizeof(struct stm32_eth_dma_bd)`. -/
def bdSize : Nat := 16

/-- `sizeof(struct stm32_sk_buff_fake)`. -/
def skbFakeSize : Nat := 4

/-- Parameters that pass the checks of the probe, `drivers/net/arm/stm32_eth.c:1635–1649`;
`bufBase` is `CONFIG_STM32_ETHER_BUF_IN_SRAM_BASE`. -/
structure EthParams where
  bufBase : Nat
  frameMaxSize : Nat
  rxBufNum : Nat
  txBufNum : Nat
  frameMaxSize_ge : 64 ≤ frameMaxSize
  frameMaxSize_le : frameMaxSize ≤ 0x3FFF
  rxBufNum_pos : 0 < rxBufNum
  txBufNum_pos : 0 < txBufNum
  rxBufNum_lt : rxBufNum < 4294967296
  txBufNum_lt : txBufNum < 4294967296

/-- `struct stm32_eth_dma_bd`, `drivers/net/arm/stm32_eth.c:252`. -/
structure EthDmaBd where
  stat : Nat
  ctrl : Nat
  buf : Nat
  next : Nat
  deriving DecidableEq, Repr

/-- `stm32_sram_alloc`, `drivers/net/arm/stm32_eth.c:581`: the block's address and the
pointer behind it, or nothing when the `BUG_ON` fires. -/
def sramAlloc (sramPointer size : Nat) : Option (Nat × Nat) :=
  let pointer := wadd sramPointer (wadd (align size 4) 4)
  if sramEnd ≤ pointer then none else some (sramPointer, pointer)

/-- The allocations of one buffer loop: the addresses in order and the final pointer. -/
def skbAlloc (size : Nat) : Nat → Nat → Option (List Nat × Nat)
  | 0, pointer => some ([], pointer)
  | n + 1, pointer => do
    let skb ← sramAlloc pointer size
    let rest ← skbAlloc size n skb.2
    some (skb.1 :: rest.1, rest.2)

/-- What an open device holds in SRAM. -/
structure EthBufs where
  rxBd : List EthDmaBd
  txBd : List EthDmaBd
  deriving DecidableEq, Repr

/-- The chained descriptors of one ring: `next` runs round the ring at `bdAddr`. -/
def bdRing (stat ctrl bdAddr : Nat) (skbs : List Nat) : List EthDmaBd :=
  skbs.mapIdx fun i skb =>
    ⟨stat, ctrl, wadd skb skbFakeSize, wadd bdAddr (bdSize * ((i + 1) % skbs.length))⟩

/-- `stm32_eth_buffers_alloc`, `drivers/net/arm/stm32_eth.c:594`. The descriptors start as
`STM32_DMA_RBD_DMA_OWN` with `STM32_DMA_RBD_RCH | frame_max_size`, and `STM32_DMA_TBD_TCH`. -/
def buffersAlloc (p : EthParams) (sramPointer : Nat) : Option (EthBufs × Nat) := do
  let rxBd ← sramAlloc sramPointer (wmul bdSize p.rxBufNum)
  let txBd ← sramAlloc rxBd.2 (wmul bdSize p.txBufNum)
  let skbSize := skbFakeSize + p.frameMaxSize + 4
  let rxSkb ← skbAlloc skbSize p.rxBufNum txBd.2
  let txSkb ← skbAlloc skbSize p.txBufNum rxSkb.2
  some (⟨bdRing (2 ^ 31) (2 ^ 14 ||| p.frameMaxSize) rxBd.1 rxSkb.1,
    bdRing (2 ^ 20) 0 txBd.1 txSkb.1⟩, txSkb.2)

/-- `stm32_eth_buffers_free`, `drivers/net/arm/stm32_eth.c:650`. -/
def buffersFree (p : EthParams) (sramPointer : Nat) : Nat :=
  let totalAllocSize := bdSize + skbFakeSize + p.frameMaxSize + 4
  wsub sramPointer (wmul totalAllocSize (wadd p.rxBufNum p.txBufNum))

/-- The device as far as its SRAM use goes. -/
structure EthDev where
  sramPointer : Nat
  opened : Bool
  bufs : EthBufs
  deriving DecidableEq, Repr

/-- The probe's part, `drivers/net/arm/stm32_eth.c:1605, 1664`: the two tables of buffer
pointers come first. -/
def ethProbe (p : EthParams) : Option EthDev := do
  let rxSkb ← sramAlloc (align (wadd 0x20000000 p.bufBase) 4) (wmul p.rxBufNum 4)
  let txSkb ← sramAlloc rxSkb.2 (wmul p.txBufNum 4)
  some ⟨txSkb.2, false, ⟨[], []⟩⟩

/-- `stm32_netdev_open`, `drivers/net/arm/stm32_eth.c:1043`, with its return value. -/
def netdevOpen (p : EthParams) (s : EthDev) (hwRv irqRv : Int) : Option (Int × EthDev) := do
  let b ← buffersAlloc p s.sramPointer
  if hwRv ≠ 0 then some (hwRv, { s with sramPointer := buffersFree p b.2, bufs := b.1 })
  else if irqRv ≠ 0 then some (irqRv, { s with sramPointer := buffersFree p b.2, bufs := b.1 })
  else some (0, ⟨b.2, true, b.1⟩)

/-- `stm32_netdev_close`, `drivers/net/arm/stm32_eth.c:1120`. -/
def netdevClose (p : EthParams) (s : EthDev) : EthDev :=
  { s with sramPointer := buffersFree p s.sramPointer, opened := false }

/-- A call of the network core. -/
inductive EthCall
  | netdevOpen (hwRv irqRv : Int)
  | netdevClose
  deriving DecidableEq, Repr

/-- The machine: the device, or the stop after a `BUG_ON`. -/
inductive EthState
  | running (s : EthDev)
  | bug
  deriving DecidableEq, Repr

/-- The network core opens a closed device and closes an open one. -/
def ethStep (p : EthParams) : EthState → EthCall → Option EthState
  | .bug, _ => none
  | .running s, .netdevOpen hwRv irqRv =>
    if s.opened then none
    else match netdevOpen p s hwRv irqRv with
      | none => some .bug
      | some r => some (.running r.2)
  | .running s, .netdevClose => if s.opened then some (.running (netdevClose p s)) else none

/-- All runs of opens and closes of a probed device. -/
def ethSystem (p : EthParams) : System EthState EthCall where
  init st := ∃ s, ethProbe p = some s ∧ st = .running s
  step := ethStep p

/-! ### What one open takes and one close gives back -/

/-- Bytes one frame buffer takes: rounded to words, with the allocator's guard word. -/
def EthParams.skbRoom (p : EthParams) : Nat := (p.frameMaxSize + 11) / 4 * 4 + 4

/-- Bytes an open takes off the pointer. -/
def EthParams.taken (p : EthParams) : Nat :=
  16 * (p.rxBufNum + p.txBufNum) + 8 + (p.rxBufNum + p.txBufNum) * p.skbRoom

/-- Bytes a close gives back. -/
def EthParams.given (p : EthParams) : Nat := (p.rxBufNum + p.txBufNum) * (p.frameMaxSize + 24)

private theorem sramAlloc_spec {pointer size : Nat} {r : Nat × Nat}
    (h : sramAlloc pointer size = some r) :
    r = (pointer, wadd pointer (wadd (align size 4) 4)) ∧ r.2 < sramEnd := by
  simp only [sramAlloc] at h
  split at h
  · exact absurd h (by simp)
  · next hlt =>
    cases h
    exact ⟨rfl, Nat.lt_of_not_le hlt⟩

/-- A small block below the end of the SRAM moves the pointer without wrapping. -/
private theorem sramAlloc_pointer {pointer size : Nat} {r : Nat × Nat}
    (h : sramAlloc pointer size = some r) (hp : pointer < sramEnd) (hs : size < 0x40000000) :
    r.2 = pointer + ((size + 3) / 4 * 4 + 4) ∧ r.2 < sramEnd := by
  obtain ⟨he, hlt⟩ := sramAlloc_spec h
  refine ⟨?_, hlt⟩
  rw [he]
  simp only [wadd, align, alignDown, sramEnd] at *
  omega

/-- A buffer loop moves the pointer by one room for each buffer, and stays inside. -/
private theorem skbAlloc_spec {size : Nat} (hs : size < 0x40000000) :
    ∀ {n pointer : Nat} {r : List Nat × Nat}, skbAlloc size n pointer = some r →
      pointer < sramEnd → r.2 = pointer + n * ((size + 3) / 4 * 4 + 4) ∧ r.2 < sramEnd := by
  intro n
  induction n with
  | zero =>
    intro pointer r h hp
    cases h
    exact ⟨by omega, hp⟩
  | succ n ih =>
    intro pointer r h hp
    simp only [skbAlloc, Option.bind_eq_bind, Option.bind_eq_some_iff, Option.some.injEq] at h
    obtain ⟨skb, h1, rest, h2, rfl⟩ := h
    obtain ⟨he1, hlt1⟩ := sramAlloc_pointer h1 hp hs
    obtain ⟨he2, hlt2⟩ := ih h2 hlt1
    refine ⟨?_, hlt2⟩
    rw [he2, he1, Nat.succ_mul]
    omega

variable {p : EthParams} {s : EthDev}

/-- An open that gets its buffers moves the pointer by exactly `taken`: the buffer loops
could not stay inside the SRAM if any earlier sum had wrapped. -/
private theorem buffersAlloc_spec {pointer : Nat} {b : EthBufs × Nat}
    (h : buffersAlloc p pointer = some b) (hp : pointer < sramEnd) :
    b.2 = pointer + p.taken ∧ b.2 < sramEnd := by
  simp only [buffersAlloc, Option.bind_eq_bind, Option.bind_eq_some_iff, Option.some.injEq] at h
  obtain ⟨rxBd, h1, txBd, h2, rxSkb, h3, txSkb, h4, rfl⟩ := h
  have hf := p.frameMaxSize_le
  have hsz : skbFakeSize + p.frameMaxSize + 4 < 0x40000000 := by simp only [skbFakeSize]; omega
  have hroom : (skbFakeSize + p.frameMaxSize + 4 + 3) / 4 * 4 + 4 = p.skbRoom := by
    simp only [skbFakeSize, EthParams.skbRoom]; omega
  obtain ⟨he3, hl3⟩ := skbAlloc_spec hsz h3 (sramAlloc_spec h2).2
  obtain ⟨he4, hl4⟩ := skbAlloc_spec hsz h4 hl3
  rw [hroom] at he3 he4
  have hrx : p.rxBufNum ≤ p.rxBufNum * p.skbRoom :=
    Nat.le_mul_of_pos_right _ (by simp only [EthParams.skbRoom]; omega)
  have htx : p.txBufNum ≤ p.txBufNum * p.skbRoom :=
    Nat.le_mul_of_pos_right _ (by simp only [EthParams.skbRoom]; omega)
  have hge : 76 ≤ p.skbRoom := by
    have := p.frameMaxSize_ge
    simp only [EthParams.skbRoom]
    omega
  have hrx' := Nat.mul_le_mul_left p.rxBufNum hge
  have htx' := Nat.mul_le_mul_left p.txBufNum hge
  simp only [sramEnd] at *
  have hmr : wmul bdSize p.rxBufNum = 16 * p.rxBufNum :=
    Nat.mod_eq_of_lt (by simp only [bdSize]; omega)
  have hmt : wmul bdSize p.txBufNum = 16 * p.txBufNum :=
    Nat.mod_eq_of_lt (by simp only [bdSize]; omega)
  rw [hmr] at h1
  rw [hmt] at h2
  obtain ⟨he1, hl1⟩ := sramAlloc_pointer h1 hp (by omega)
  obtain ⟨he2, -⟩ := sramAlloc_pointer h2 hl1 (by omega)
  refine ⟨?_, hl4⟩
  rw [he4, he3, he2, he1, EthParams.taken, Nat.add_mul]
  omega

/-- An open takes more than a close gives back, by the guard words and the padding. -/
theorem EthParams.given_lt_taken (p : EthParams) : p.given < p.taken := by
  have h : p.frameMaxSize + 24 ≤ p.skbRoom + 16 := by simp only [EthParams.skbRoom]; omega
  have hm := Nat.mul_le_mul_left (p.rxBufNum + p.txBufNum) h
  rw [Nat.mul_add _ p.skbRoom] at hm
  simp only [EthParams.given, EthParams.taken]
  omega

/-- Where the buffers were taken in SRAM, freeing them moves the pointer by `given`. -/
private theorem buffersFree_spec {pointer : Nat} (ht : p.taken ≤ pointer)
    (hp : pointer < sramEnd) : buffersFree p pointer = pointer - p.given := by
  have hlt := p.given_lt_taken
  have hn : p.rxBufNum + p.txBufNum ≤ p.taken := by simp only [EthParams.taken]; omega
  have hsum : wadd p.rxBufNum p.txBufNum = p.rxBufNum + p.txBufNum :=
    wadd_of_lt (by simp only [sramEnd] at hp; omega)
  have hg : wmul (bdSize + skbFakeSize + p.frameMaxSize + 4) (p.rxBufNum + p.txBufNum) =
      p.given := by
    have he : (bdSize + skbFakeSize + p.frameMaxSize + 4) * (p.rxBufNum + p.txBufNum) =
        p.given := by
      rw [Nat.mul_comm, EthParams.given]
      simp only [bdSize, skbFakeSize]
      congr 1
      omega
    rw [wmul, he]
    exact Nat.mod_eq_of_lt (by simp only [sramEnd] at hp; omega)
  simp only [buffersFree]
  rw [hsum, hg]
  exact wsub_of_le (by simp only [sramEnd] at hp; omega) (by omega)

/-! ### Runs of opens and closes -/

/-- The pointer never falls below its value `base` after the probe, and stays a whole open
above it while the device is open. -/
def SramInv (p : EthParams) (base : Nat) : EthState → Prop
  | .bug => True
  | .running s => s.sramPointer < sramEnd ∧
      if s.opened then base + p.taken ≤ s.sramPointer else base ≤ s.sramPointer

/-- An open leaves the device open, or closed with the pointer moved up. -/
private theorem netdevOpen_cases {hwRv irqRv : Int}
    {r : Int × EthDev} (h : netdevOpen p s hwRv irqRv = some r) (hp : s.sramPointer < sramEnd) :
    r.2.sramPointer < sramEnd ∧
      (r.2.opened = true ∧ r.2.sramPointer = s.sramPointer + p.taken ∨
        r.2.opened = s.opened ∧ r.2.sramPointer = s.sramPointer + (p.taken - p.given)) := by
  simp only [netdevOpen, Option.bind_eq_bind, Option.bind_eq_some_iff] at h
  obtain ⟨b, hb, h⟩ := h
  obtain ⟨he, hlt⟩ := buffersAlloc_spec hb hp
  have hg := p.given_lt_taken
  have hf : buffersFree p b.2 = s.sramPointer + (p.taken - p.given) := by
    rw [buffersFree_spec (by omega) hlt, he]
    omega
  rw [hf] at h
  split at h
  · cases h
    exact ⟨by dsimp only; omega, .inr ⟨rfl, rfl⟩⟩
  · split at h
    · cases h
      exact ⟨by dsimp only; omega, .inr ⟨rfl, rfl⟩⟩
    · cases h
      exact ⟨hlt, .inl ⟨rfl, he⟩⟩

/-- A close moves the pointer of an open device back, but not to where the open found it. -/
private theorem netdevClose_spec {base : Nat}
    (hp : s.sramPointer < sramEnd) (ho : base + p.taken ≤ s.sramPointer) :
    base + (p.taken - p.given) ≤ (netdevClose p s).sramPointer ∧
      (netdevClose p s).sramPointer < sramEnd := by
  have hf : buffersFree p s.sramPointer = s.sramPointer - p.given :=
    buffersFree_spec (by omega) hp
  have hg := p.given_lt_taken
  simp only [netdevClose, hf]
  omega

/-- Every step keeps the pointer bounds, and one that ends with the device closed leaves the
pointer strictly above its value after the probe. -/
private theorem ethStep_spec {base : Nat} {c : EthCall}
    {st : EthState} (hi : SramInv p base (.running s)) (h : ethStep p (.running s) c = some st) :
    SramInv p base st ∧
      ∀ s', st = .running s' → s'.opened = false → base < s'.sramPointer := by
  have hg := p.given_lt_taken
  simp only [SramInv] at hi
  cases c with
  | netdevOpen hwRv irqRv =>
    simp only [ethStep] at h
    split at h
    · exact absurd h (by simp)
    · next hc =>
      simp only [hc, Bool.false_eq_true, ↓reduceIte] at hi
      split at h
      · cases h
        exact ⟨trivial, fun s' hs' => absurd hs' (by simp)⟩
      · next r hr =>
        cases h
        obtain ⟨hlt, ⟨ho, he⟩ | ⟨ho, he⟩⟩ := netdevOpen_cases hr hi.1
        · refine ⟨⟨hlt, ?_⟩, fun s' hs' hcl => ?_⟩
          · rw [ho, he]
            simp only [↓reduceIte]
            omega
          · cases hs'
            rw [ho] at hcl
            exact absurd hcl (by simp)
        · refine ⟨⟨hlt, ?_⟩, fun s' hs' hcl => ?_⟩
          · rw [ho, he]
            simp only [hc, Bool.false_eq_true, ↓reduceIte]
            omega
          · cases hs'
            rw [he]
            omega
  | netdevClose =>
    simp only [ethStep] at h
    split at h
    · next ho =>
      simp only [ho, ↓reduceIte] at hi
      cases h
      obtain ⟨hge, hlt⟩ := netdevClose_spec hi.1 hi.2
      refine ⟨⟨hlt, ?_⟩, fun s' hs' _ => ?_⟩
      · change base ≤ (netdevClose p s).sramPointer
        omega
      · cases hs'
        omega
    · exact absurd h (by simp)

private theorem ethProbe_lt (h : ethProbe p = some s) :
    s.sramPointer < sramEnd ∧ s.opened = false := by
  simp only [ethProbe, Option.bind_eq_bind, Option.bind_eq_some_iff, Option.some.injEq] at h
  obtain ⟨rxSkb, -, txSkb, h2, rfl⟩ := h
  exact ⟨(sramAlloc_spec h2).2, rfl⟩

private theorem sramInv_of_reach {s₀ : EthDev} (h₀ : ethProbe p = some s₀)
    {st : EthState} (h : (ethSystem p).Reach System.Always st) :
    SramInv p s₀.sramPointer st := by
  refine h.invariant ?_ ?_
  · rintro st ⟨s, hs, rfl⟩
    cases h₀.symm.trans hs
    obtain ⟨hlt, hc⟩ := ethProbe_lt h₀
    simp only [SramInv, hc, Bool.false_eq_true, ↓reduceIte]
    exact ⟨hlt, Nat.le_refl _⟩
  · intro st c st' hi _ he
    cases st with
    | bug => exact absurd he (by simp [ethSystem, ethStep])
    | running s => exact (ethStep_spec hi he).1

/-- Each open and close either meets the `BUG_ON` or moves the pointer up by the leak. -/
private theorem reach_cycles {s₀ : EthDev} (h₀ : ethProbe p = some s₀) (k : Nat) :
    (ethSystem p).Reach System.Always .bug ∨
      ∃ s, (ethSystem p).Reach System.Always (.running s) ∧ s.opened = false ∧
        s.sramPointer < sramEnd ∧ s₀.sramPointer + k * (p.taken - p.given) ≤ s.sramPointer := by
  induction k with
  | zero =>
    obtain ⟨hlt, hc⟩ := ethProbe_lt h₀
    exact .inr ⟨s₀, .init ⟨s₀, h₀, rfl⟩, hc, hlt, by omega⟩
  | succ k ih =>
    rcases ih with hb | ⟨s, hr, hc, hlt, hge⟩
    · exact .inl hb
    · cases ho : netdevOpen p s 0 0 with
      | none =>
        refine .inl (.step hr (a := .netdevOpen 0 0) trivial ?_)
        simp [ethSystem, ethStep, hc, ho]
      | some r =>
        have hr' : (ethSystem p).Reach System.Always (.running r.2) := by
          refine .step hr (a := .netdevOpen 0 0) trivial ?_
          simp [ethSystem, ethStep, hc, ho]
        have hopen : r.2.opened = true := by
          simp only [netdevOpen, Option.bind_eq_bind, Option.bind_eq_some_iff] at ho
          obtain ⟨b, -, ho⟩ := ho
          cases ho
          rfl
        obtain ⟨hlt', he⟩ := netdevOpen_cases ho hlt
        have hptr : r.2.sramPointer = s.sramPointer + p.taken := by
          rcases he with he | he
          · exact he.2
          · rw [hopen, hc] at he
            exact absurd he.1 (by simp)
        have hcl := netdevClose_spec hlt' (Nat.le_of_eq hptr.symm)
        refine .inr ⟨netdevClose p r.2, ?_, rfl, hcl.2, ?_⟩
        · refine .step hr' (a := .netdevClose) trivial ?_
          simp [ethSystem, ethStep, hopen]
        · rw [Nat.succ_mul]
          omega

/-- The pointer never comes back: whatever opens and closes were made, every call that ends
with the device closed leaves the pointer above its value after the probe, and enough of
them run into the `BUG_ON`. -/
theorem sram_never_balanced (p : EthParams) (s₀ : EthDev) (h₀ : ethProbe p = some s₀) :
    (∀ s c s', (ethSystem p).Reach System.Always (.running s) →
      ethStep p (.running s) c = some (.running s') → s'.opened = false →
        s'.sramPointer ≠ s₀.sramPointer) ∧
      (ethSystem p).Reach System.Always .bug := by
  constructor
  · intro s c s' hr hs hc
    have hgt := (ethStep_spec (sramInv_of_reach h₀ hr) hs).2 s' rfl hc
    exact Nat.ne_of_gt hgt
  · rcases reach_cycles h₀ sramEnd with hb | ⟨s, -, -, hlt, hge⟩
    · exact hb
    · have hpos : 1 ≤ p.taken - p.given := Nat.sub_pos_of_lt p.given_lt_taken
      have hm := Nat.mul_le_mul_left sramEnd hpos
      omega

/-- The board's data, `arch/arm/mach-stm32/eth.c:86`, and its default buffer base. -/
def stm32f7EthData : EthParams where
  bufBase := 0x1000
  frameMaxSize := 2044
  rxBufNum := 12
  txBufNum := 8
  frameMaxSize_ge := by decide
  frameMaxSize_le := by decide
  rxBufNum_pos := by decide
  txBufNum_pos := by decide
  rxBufNum_lt := by decide
  txBufNum_lt := by decide

/-- The board's device probes and opens, and still runs into the `BUG_ON`. -/
theorem sram_never_balanced_stm32f7 :
    ethProbe stm32f7EthData = some ⟨0x20001058, false, ⟨[], []⟩⟩ ∧
      (netdevOpen stm32f7EthData ⟨0x20001058, false, ⟨[], []⟩⟩ 0 0).isSome ∧
      (ethSystem stm32f7EthData).Reach System.Always .bug := by
  have h₀ : ethProbe stm32f7EthData = some ⟨0x20001058, false, ⟨[], []⟩⟩ := by decide +kernel
  exact ⟨h₀, by decide +kernel, (sram_never_balanced stm32f7EthData _ h₀).2⟩

/-- One open and close of the board's device leave the pointer 88 bytes above its value
after the probe. -/
theorem sram_leaks_stm32f7 :
    ∃ s₀ s, ethProbe stm32f7EthData = some s₀ ∧
      (ethSystem stm32f7EthData).exec (.running s₀) [.netdevOpen 0 0, .netdevClose] =
        some (.running s) ∧
      s.opened = false ∧ s.sramPointer = s₀.sramPointer + 88 := by
  refine ⟨⟨0x20001058, false, ⟨[], []⟩⟩, _, by decide +kernel, rfl, by decide +kernel, ?_⟩
  decide +kernel

end LinuxStm32.Drivers.Net
