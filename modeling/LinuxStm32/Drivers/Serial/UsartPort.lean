import LinuxStm32.Base.System
import Mathlib.Data.List.Basic
import Mathlib.Logic.Function.Basic

/-!
# Opening and closing a USART port

`stm_port_startup`, `stm_port_shutdown` and `stm_port_release_port`,
`drivers/serial/stm32_usart.c:458–621,717–729` for the STM32F7, with two receive buffers.
`dma_alloc_coherent` and `request_irq` are taken at their interface: a label carries their answers,
and a buffer that is handed out is not one the port already has. The stream reads back as disabled
as soon as `EN` is cleared. `held` records which buffers were handed out for the port and not
given back.
-/

namespace LinuxStm32.Drivers.Serial

open Base

/-- The registers of the USART and of its receive stream that the port uses. -/
structure PortRegs where
  cr1 : BitVec 32
  cr2 : BitVec 32
  cr3 : BitVec 32
  brr : BitVec 32
  cr : BitVec 32
  ndtr : Nat
  m0ar : Nat
  m1ar : Nat

/-- A port, its private data and the buffers it has. -/
structure UsartPort where
  /-- `CLOCK_PCLK1` or `CLOCK_PCLK2`, whichever the line uses. -/
  apbClock : Nat
  /-- `ini.chan`. -/
  chan : BitVec 32
  rxb : Nat → Option Nat
  rxbDma : Nat → Nat
  wbuf : Nat
  wpos : Nat
  rbuf : Nat
  rpos : Nat
  usartIrq : Bool
  dmaIrq : Bool
  regs : PortRegs
  held : List Nat
  /-- The last startup succeeded and was not followed by a shutdown. -/
  started : Bool

/-- `STM32_DMA_RX_BUF_NUM`. -/
def rxBufNum : Nat := 2

/-- `STM32_DMA_CR_EN`. -/
def dmaCrEn : BitVec 32 := 1#32

/-- `TE | RE` of `CR1`. -/
def cr1TeRe : BitVec 32 := 0xc#32

/-- `IDLIE | TXEIE` of `CR1`. -/
def cr1IdlieTxeie : BitVec 32 := 0x90#32

/-- `STM32_USART_CR1_UE`. -/
def cr1Ue : BitVec 32 := 1#32

/-- `STM32_USART_CR3_DMAR`. -/
def cr3Dmar : BitVec 32 := 0x40#32

namespace UsartPort

/-- `dma_free_coherent`, `arch/arm/mm/dma-mapping.c:414`: with the coherent pool of the STM32F7 the
handle is not used. -/
def dmaFreeCoherent (p : UsartPort) (cpuAddr _handle : Nat) : UsartPort :=
  { p with held := p.held.erase cpuAddr }

/-- Free `rxb[i]` and forget it. -/
def freeRxb (p : UsartPort) (i handle : Nat) : UsartPort :=
  match p.rxb i with
  | none => p
  | some addr =>
    let p := p.dmaFreeCoherent addr handle
    { p with rxb := Function.update p.rxb i none }

/-- The loop `while (--i >= 0)`; `drivers/serial/stm32_usart.c:482–486`. -/
def freeBack : Nat → UsartPort → UsartPort
  | 0, p => p
  | i + 1, p => freeBack i (p.freeRxb i (p.rxbDma i))

/-- The loop that allocates the buffers, `n` of them left from `i` on;
`drivers/serial/stm32_usart.c:475–489`. -/
def allocRxb (bufs : Nat → Option Nat) : Nat → Nat → UsartPort → Int × UsartPort
  | 0, _, p => (0, p)
  | n + 1, i, p =>
    match bufs i with
    | some addr =>
      allocRxb bufs n (i + 1) { p with
        rxb := Function.update p.rxb i (some addr)
        rxbDma := Function.update p.rxbDma i addr
        held := addr :: p.held }
    | none => (-12, freeBack i { p with rxb := Function.update p.rxb i none })

/-- `stm_set_baud_rate`, `drivers/serial/stm32_usart.c:432`. -/
def setBaudRate (p : UsartPort) (baudrate : Nat) : UsartPort :=
  let intDiv := 25 * p.apbClock % 4294967296 / (4 * baudrate)
  let tmp := intDiv / 100 * 16 % 65536
  let fracDiv := intDiv - 100 * (tmp / 16)
  let frac := (fracDiv * 16 + 50) % 4294967296 / 100
  let brr := BitVec.ofNat 32 tmp ||| (BitVec.ofNat 32 frac &&& 0xf#32)
  { p with regs := { p.regs with brr := brr &&& 0xffff#32 } }

/-- The stream and the USART are programmed; `drivers/serial/stm32_usart.c:509–594`. -/
def programHw (p : UsartPort) : UsartPort :=
  -- PL_HIGH, CIRC, MINC, TCIE, HTIE and DBM
  let cr := (p.chan <<< 25) ||| 0x60518#32
  let p := { p with regs := { p.regs with
    cr := cr ||| dmaCrEn
    ndtr := 512
    m0ar := p.rxbDma 0
    m1ar := p.rxbDma 1
    cr1 := cr1TeRe ||| cr1IdlieTxeie
    cr2 := 0#32
    cr3 := cr3Dmar } }
  let p := if p.regs.brr &&& 0xffff#32 = 0#32 then p.setBaudRate 115200 else p
  { p with regs := { p.regs with cr1 := p.regs.cr1 ||| cr1Ue } }

end UsartPort

/-- What the rest of the kernel answers to a startup: the buffers and the results of the two
`request_irq`. -/
structure StartupEnv where
  bufs : Nat → Option Nat
  usartIrq : Int
  dmaIrq : Int

namespace UsartPort

/-- `stm_port_startup`, `drivers/serial/stm32_usart.c:458`. -/
def stmPortStartup (p : UsartPort) (env : StartupEnv) : Int × UsartPort :=
  let p := { p with wbuf := 0, wpos := 0, rbuf := 0, rpos := 0 }
  match allocRxb env.bufs rxBufNum 0 p with
  | (0, p) =>
    if env.usartIrq ≠ 0 then (env.usartIrq, p)
    else
      let p := { p with usartIrq := true }
      if env.dmaIrq ≠ 0 then (env.dmaIrq, { p with usartIrq := false })
      else (0, { p.programHw with dmaIrq := true, started := true })
  | (rv, p) => (rv, p)

/-- `stm_port_shutdown`, `drivers/serial/stm32_usart.c:603`. -/
def stmPortShutdown (p : UsartPort) : UsartPort :=
  { p with
    regs := { p.regs with
      cr := p.regs.cr &&& ~~~ dmaCrEn
      cr1 := p.regs.cr1 &&& ~~~ (cr1TeRe ||| cr1Ue) &&& ~~~ cr1IdlieTxeie }
    dmaIrq := false
    usartIrq := false
    started := false }

/-- The loop of `stm_port_release_port`; `n` buffers are left from `i` on. -/
def releaseRxb : Nat → Nat → UsartPort → UsartPort
  | 0, _, p => p
  | n + 1, i, p => releaseRxb n (i + 1) (p.freeRxb i (p.rxbDma 0))

/-- `stm_port_release_port`, `drivers/serial/stm32_usart.c:717`. -/
def stmPortReleasePort (p : UsartPort) : UsartPort := releaseRxb rxBufNum 0 p

end UsartPort

/-- The buffers are not ones the port has, and not one buffer twice. -/
def StartupEnv.fresh (p : UsartPort) (env : StartupEnv) : Bool :=
  (env.bufs 0).all (· ∉ p.held) && (env.bufs 1).all (· ∉ p.held) &&
    (env.bufs 0 == none || env.bufs 0 != env.bufs 1)

/-- The calls of the serial core. -/
inductive PortCall
  | startup (env : StartupEnv)
  | shutdown
  | releasePort

/-- One call; a shutdown comes after a successful startup. -/
def portStep (p : UsartPort) : PortCall → Option UsartPort
  | .startup env => if env.fresh p then some (p.stmPortStartup env).2 else none
  | .shutdown => if p.started then some p.stmPortShutdown else none
  | .releasePort => some p.stmPortReleasePort

/-- All sequences of calls on a port that was just set up. -/
def portSystem : System UsartPort PortCall where
  init p := p.rxb 0 = none ∧ p.rxb 1 = none ∧ p.held = [] ∧ p.started = false
  step := portStep

/-! ### What a call does to the buffers -/

namespace UsartPort

variable {p : UsartPort}

/-- The port has no buffer. -/
structure Empty (p : UsartPort) : Prop where
  rxb0 : p.rxb 0 = none
  rxb1 : p.rxb 1 = none
  held : p.held = []

/-- The port has the two buffers it points to and no other. -/
structure Owns (p : UsartPort) (a b : Nat) : Prop where
  ne : a ≠ b
  rxb0 : p.rxb 0 = some a
  rxb1 : p.rxb 1 = some b
  held : p.held = [b, a]

theorem freeRxb_none {i : Nat} (h : p.rxb i = none) (handle : Nat) : p.freeRxb i handle = p := by
  rw [freeRxb, h]

theorem freeRxb_some {i addr : Nat} (h : p.rxb i = some addr) (handle : Nat) :
    p.freeRxb i handle =
      { p with held := p.held.erase addr, rxb := Function.update p.rxb i none } := by
  rw [freeRxb, h]
  rfl

/-- Without pointers to them a release frees no buffers. -/
theorem release_of_none (h0 : p.rxb 0 = none) (h1 : p.rxb 1 = none) :
    p.stmPortReleasePort = p := by
  rw [stmPortReleasePort, rxBufNum, releaseRxb, releaseRxb, releaseRxb, freeRxb_none h0,
    freeRxb_none h1]

theorem Owns.release {a b : Nat} (h : p.Owns a b) : p.stmPortReleasePort.Empty := by
  have hheld : (p.held.erase a).erase b = [] := by
    rw [h.held, List.erase_cons_tail (by simpa using h.ne.symm), List.erase_cons_head,
      List.erase_cons_head]
  constructor <;>
    simp [stmPortReleasePort, rxBufNum, releaseRxb, freeRxb, dmaFreeCoherent, h.rxb0, h.rxb1, hheld]

/-- A pointer to a buffer whose twin is lost: the release frees only the buffer pointed to. -/
theorem release_of_second {b : Nat} (h0 : p.rxb 0 = none) (h1 : p.rxb 1 = some b) :
    p.stmPortReleasePort.held = p.held.erase b := by
  rw [stmPortReleasePort, rxBufNum, releaseRxb, releaseRxb, releaseRxb, freeRxb_none h0,
    freeRxb_some h1]

theorem programHw_rxb : p.programHw.rxb = p.rxb := by
  rw [programHw]
  dsimp only
  split <;> rfl

theorem programHw_held : p.programHw.held = p.held := by
  rw [programHw]
  dsimp only
  split <;> rfl

/-- The buffers and their pointers after a startup: two more of them, or none more and the first
pointer lost, or none more and both lost. -/
inductive StartupCase (p : UsartPort) (env : StartupEnv) (p' : UsartPort) : Prop
  | both (a b : Nat) (ha : env.bufs 0 = some a) (hb : env.bufs 1 = some b)
      (h0 : p'.rxb 0 = some a) (h1 : p'.rxb 1 = some b) (hh : p'.held = b :: a :: p.held)
  | first (h0 : p'.rxb 0 = none) (h1 : p'.rxb 1 = p.rxb 1) (hh : p'.held = p.held)
  | second (h0 : p'.rxb 0 = none) (h1 : p'.rxb 1 = none) (hh : p'.held = p.held)

theorem startup_case (p : UsartPort) (env : StartupEnv) :
    StartupCase p env (p.stmPortStartup env).2 := by
  cases h0 : env.bufs 0 with
  | none =>
    apply StartupCase.first <;>
      simp [stmPortStartup, rxBufNum, allocRxb, freeBack, h0]
  | some a =>
    cases h1 : env.bufs 1 with
    | none =>
      apply StartupCase.second <;>
        simp [stmPortStartup, rxBufNum, allocRxb, freeBack, freeRxb, dmaFreeCoherent, h0, h1]
    | some b =>
      apply StartupCase.both a b h0 h1 <;>
        simp only [stmPortStartup, rxBufNum, allocRxb, h0, h1, Nat.zero_add] <;> split <;>
        (try split) <;> simp [programHw_rxb, programHw_held]

end UsartPort

/-! ### Runs -/

/-- A port that is started has no pointer to a buffer. -/
def PortOk (p : UsartPort) : PortCall → Prop
  | .startup _ => p.rxb 0 = none ∧ p.rxb 1 = none
  | _ => True

/-- The port has no buffer, or the two it points to. -/
def Accounted (p : UsartPort) : Prop := p.Empty ∨ ∃ a b, p.Owns a b

private theorem bufs_ne {env : StartupEnv} {p : UsartPort} (h : env.fresh p = true)
    {a b : Nat} (ha : env.bufs 0 = some a) (hb : env.bufs 1 = some b) : a ≠ b := by
  simp [StartupEnv.fresh, ha, hb] at h
  exact h.2

theorem accounted_step {p p' : UsartPort} {c : PortCall} (h : Accounted p) (hok : PortOk p c)
    (he : portStep p c = some p') : Accounted p' := by
  cases c with
  | startup env =>
    rw [portStep] at he
    split at he
    next hfresh =>
      obtain rfl := Option.some.inj he
      have hempty : p.Empty := by
        rcases h with h | ⟨a, b, h⟩
        · exact h
        · exact absurd (h.rxb0.symm.trans hok.1) nofun
      cases UsartPort.startup_case p env with
      | both a b ha hb h0 h1 hh =>
        exact .inr ⟨a, b, bufs_ne hfresh ha hb, h0, h1, by rw [hh, hempty.held]⟩
      | first h0 h1 hh => exact .inl ⟨h0, h1.trans hempty.rxb1, hh.trans hempty.held⟩
      | second h0 h1 hh => exact .inl ⟨h0, h1, hh.trans hempty.held⟩
    next => cases he
  | shutdown =>
    rw [portStep] at he
    split at he
    next =>
      obtain rfl := Option.some.inj he
      rcases h with h | ⟨a, b, h⟩
      · exact .inl ⟨h.rxb0, h.rxb1, h.held⟩
      · exact .inr ⟨a, b, h.ne, h.rxb0, h.rxb1, h.held⟩
    next => cases he
  | releasePort =>
    obtain rfl := Option.some.inj he
    rcases h with h | ⟨a, b, h⟩
    · rw [UsartPort.release_of_none h.rxb0 h.rxb1]
      exact .inl h
    · exact .inl h.release

theorem accounted_reach {p : UsartPort} (h : portSystem.Reach PortOk p) : Accounted p := by
  apply System.Reach.invariant _ _ h
  · intro p hp
    exact .inl ⟨hp.1, hp.2.1, hp.2.2.1⟩
  · intro p c p' hp hok he
    exact accounted_step hp hok he

/-- If the port is only ever started without buffers, it has at most two and none after a release.
A start with buffers is followed by too many of them, or leaves one behind a release. -/
theorem usart_port_no_leak {p : UsartPort} (h : portSystem.Reach PortOk p) :
    (p.held.length ≤ 2 ∧ p.stmPortReleasePort.held = []) ∧
      ∀ env p', ¬ PortOk p (.startup env) → portStep p (.startup env) = some p' →
        2 < p'.held.length ∨ p'.stmPortReleasePort.held ≠ [] := by
  have hacc := accounted_reach h
  constructor
  · rcases hacc with h | ⟨a, b, h⟩
    · rw [UsartPort.release_of_none h.rxb0 h.rxb1, h.held]
      exact ⟨Nat.zero_le 2, rfl⟩
    · rw [h.held]
      exact ⟨Nat.le_refl 2, h.release.held⟩
  · intro env p' hnot he
    rcases hacc with h | ⟨a, b, h⟩
    · exact absurd ⟨h.rxb0, h.rxb1⟩ hnot
    · rw [portStep] at he
      split at he
      next =>
        obtain rfl := Option.some.inj he
        cases UsartPort.startup_case p env with
        | both c d _ _ _ _ hh =>
          left
          rw [hh, h.held]
          exact Nat.lt_of_sub_eq_succ rfl
        | first h0 h1 hh =>
          right
          rw [UsartPort.release_of_second h0 (h1.trans h.rxb1), hh, h.held, List.erase_cons_head]
          exact List.cons_ne_nil a []
        | second h0 h1 hh =>
          right
          rw [UsartPort.release_of_none h0 h1, hh, h.held]
          exact List.cons_ne_nil b [a]
      next => cases he

/-- A port that was just set up. -/
def UsartPort.fresh : UsartPort where
  apbClock := 50000000
  chan := 4#32
  rxb _ := none
  rxbDma _ := 0
  wbuf := 0
  wpos := 0
  rbuf := 0
  rpos := 0
  usartIrq := false
  dmaIrq := false
  regs := ⟨0#32, 0#32, 0#32, 0#32, 0#32, 0, 0, 0⟩
  held := []
  started := false

/-- A startup that gets two buffers from `base` on and its interrupts. -/
def StartupEnv.ok (base : Nat) : StartupEnv := ⟨fun i => some (base + 4096 * i), 0, 0⟩

/-- A port that is opened, closed and released. -/
theorem usart_port_no_leak_once :
    ∃ p, portSystem.exec .fresh [.startup (.ok 4096), .shutdown, .releasePort] = some p ∧
      p.held.length ≤ 2 ∧ p.stmPortReleasePort.held = [] := by
  refine ⟨_, rfl, (usart_port_no_leak ?_).1⟩
  have h0 : portSystem.Reach PortOk .fresh := .init ⟨rfl, rfl, rfl, rfl⟩
  have hok : PortOk .fresh (.startup (.ok 4096)) := ⟨rfl, rfl⟩
  have hshut : ∀ p, PortOk p .shutdown := fun _ => trivial
  have hrel : ∀ p, PortOk p .releasePort := fun _ => trivial
  exact ((h0.step hok rfl).step (hshut _) rfl).step (hrel _) rfl

/-- A port that is opened, closed and opened again has four buffers; after it is closed and
released two of them are still held. -/
theorem usart_reopen_leaks :
    ((portSystem.exec .fresh [.startup (.ok 4096), .shutdown, .startup (.ok 16384)]).map
        fun p => p.held) = some [20480, 16384, 8192, 4096] ∧
      ((portSystem.exec .fresh [.startup (.ok 4096), .shutdown, .startup (.ok 16384), .shutdown,
        .releasePort]).map fun p => p.held) = some [8192, 4096] :=
  ⟨rfl, rfl⟩

end LinuxStm32.Drivers.Serial
