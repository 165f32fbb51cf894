import LinuxStm32.Base.System
import LinuxStm32.Base.Word
import Mathlib.Logic.Function.Basic
import Mathlib.Algebra.Order.Ring.Int

/-!
# Transmit ring of the Ethernet driver

`drivers/net/arm/stm32_eth.c:917–1034, 1148–1245` with `STM32_SRAM`. A call of
`stm32_netdev_xmit` captures a slot under `tx_lock`, fills buffer and descriptor without the
lock and sets the `OWN` bit last; `stm32_eth_tx_complete` reaps slots from the interrupt.
Any number of calls may be under way. A section under the lock is one step, and so is each
write of the unlocked part and each round of the reaping loop. The DMA transmits a
descriptor with `OWN` set, in whatever order, and writes an arbitrary status word with `OWN`
clear back. `accepted`, `reaped`, `sent` and the `seq` fields record the history and are
read by no operation.
-/

namespace LinuxStm32.Drivers.Net

open Base

/-- An Ethernet frame. -/
abbrev Frame := List UInt8

/-- `STM32_DMA_TBD_DMA_OWN` of a status word. -/
def tbdOwn (stat : Nat) : Bool := stat.testBit 31

/-- One slot: the descriptor, the buffer it points to, and the number of the frame last
handed over in it. -/
structure TxSlot where
  stat : Nat
  ctrl : Nat
  len : Nat
  data : List UInt8
  seq : Nat
  deriving DecidableEq, Repr

/-- The unlocked writes of a call in order, and its final locked section. -/
inductive XmitPc
  | copy
  | ctrl
  | own
  | finish
  deriving DecidableEq, Repr

/-- A call of `stm32_netdev_xmit` that captured slot `idx` for its frame. -/
structure Xmit where
  seq : Nat
  idx : Nat
  frame : Frame
  pc : XmitPc
  deriving DecidableEq, Repr

/-- The counters of `struct net_device_stats` the transmit side updates. -/
structure TxStats where
  txPackets : Nat
  txErrors : Nat
  txCarrierErrors : Nat
  txFifoErrors : Nat
  txBytes : Nat
  collisions : Nat
  txDropped : Nat
  deriving DecidableEq, Repr

/-- The transmit side of the device, the calls under way by task, and the history. -/
structure EthTx where
  txPending : Nat
  txTodoIdx : Nat
  txDoneIdx : Nat
  txBlocked : Bool
  slot : Nat → TxSlot
  stats : TxStats
  call : Nat → Option Xmit
  /-- `stm32_eth_tx_complete` is running and holds `tx_lock`. -/
  completing : Bool
  accepted : List Frame
  reaped : Nat
  sent : List (Nat × Frame)

/-- First locked section of `stm32_netdev_xmit`, `drivers/net/arm/stm32_eth.c:1171–1189`: a
full ring refuses the frame with `NETDEV_TX_BUSY`. -/
def xmitCapture (txBufNum task : Nat) (frame : Frame) (s : EthTx) : EthTx :=
  if s.txBlocked ∨ txBufNum ≤ s.txPending then s
  else { s with
    txPending := s.txPending + 1
    txTodoIdx := (s.txTodoIdx + 1) % txBufNum
    call := Function.update s.call task
      (some ⟨s.accepted.length, s.txTodoIdx, frame, .copy⟩)
    accepted := s.accepted ++ [frame] }

/-- One unlocked write of a call to its slot; `drivers/net/arm/stm32_eth.c:1207–1222`. -/
def xmitWrite (c : Xmit) (t : TxSlot) : TxSlot :=
  match c.pc with
  | .copy => { t with data := c.frame ++ t.data.drop c.frame.length, len := c.frame.length }
  | .ctrl => { t with ctrl := c.frame.length }
  | .own => { t with stat := t.stat ||| (2 ^ 28 ||| 2 ^ 29 ||| 2 ^ 31), seq := c.seq }
  | .finish => t

/-- The next point of a call. -/
def XmitPc.next : XmitPc → XmitPc
  | .copy => .ctrl
  | .ctrl => .own
  | .own => .finish
  | .finish => .finish

/-- Counters after reaping a slot with status `stat`; `drivers/net/arm/stm32_eth.c:939–955`. -/
def TxStats.reap (st : TxStats) (stat len : Nat) : TxStats :=
  let st := if stat.testBit 15 then
      { st with
        txErrors := wadd st.txErrors 1
        txCarrierErrors := if stat.testBit 10 then wadd st.txCarrierErrors 1 else st.txCarrierErrors
        txFifoErrors := if stat.testBit 1 then wadd st.txFifoErrors 1 else st.txFifoErrors }
    else { st with txPackets := wadd st.txPackets 1, txBytes := wadd st.txBytes len }
  { st with collisions := wadd st.collisions (if stat.testBit 8 then 16 else stat / 8 % 16) }

/-- One round of the loop of `stm32_eth_tx_complete`, or its end with the queue woken;
`drivers/net/arm/stm32_eth.c:925–976`. -/
def txCompleteRound (txBufNum : Nat) (s : EthTx) : EthTx :=
  let t := s.slot s.txDoneIdx
  if s.txPending = 0 ∨ tbdOwn t.stat then { s with txBlocked := false, completing := false }
  else { s with
    stats := s.stats.reap t.stat t.len
    txPending := s.txPending - 1
    txDoneIdx := (s.txDoneIdx + 1) % txBufNum
    reaped := s.reaped + 1 }

/-- What the calls, the interrupt and the DMA do next. `irq` is the entry of
`stm32_eth_irq` with a transmit status, `tus` its `STM32_MAC_DMASR_TUS` bit. -/
inductive TxAct
  | xmit (task : Nat) (frame : Frame)
  | advance (task : Nat)
  | irq (tus : Bool)
  | complete
  | dma (idx stat : Nat)
  deriving DecidableEq, Repr

/-- One step. A locked section of a call waits while the interrupt holds `tx_lock`; a frame
that is too long is dropped before, `drivers/net/arm/stm32_eth.c:1157–1162`. -/
def ethTxStep (txBufNum frameMaxSize : Nat) (s : EthTx) : TxAct → Option EthTx
  | .xmit task frame =>
    if (s.call task).isSome then none
    else if frameMaxSize < frame.length then
      some { s with stats := { s.stats with txDropped := wadd s.stats.txDropped 1 } }
    else if s.completing then none
    else some (xmitCapture txBufNum task frame s)
  | .advance task =>
    match s.call task with
    | none => none
    | some c =>
      if c.pc = .finish then
        -- `drivers/net/arm/stm32_eth.c:1231–1240`
        if s.completing then none
        else some { s with
          txBlocked := if s.txPending = txBufNum then true else s.txBlocked
          call := Function.update s.call task none }
      else some { s with
        slot := Function.update s.slot c.idx (xmitWrite c (s.slot c.idx))
        call := Function.update s.call task (some { c with pc := c.pc.next }) }
  | .irq tus =>
    if s.completing then none
    else some { s with
      stats := { s.stats with
        txFifoErrors := if tus then wadd s.stats.txFifoErrors 1 else s.stats.txFifoErrors }
      completing := true }
  | .complete => if s.completing then some (txCompleteRound txBufNum s) else none
  | .dma idx stat =>
    let t := s.slot idx
    if tbdOwn t.stat ∧ tbdOwn stat = false then
      some { s with
        slot := Function.update s.slot idx { t with stat := stat }
        sent := (t.seq, t.data.take t.ctrl) :: s.sent }
    else none

/-- The device after `stm32_netdev_open`: no descriptor is owned by the DMA. The counters
and the contents of the buffers are whatever earlier use left. -/
def EthTx.Opened (stats : TxStats) (s : EthTx) : Prop :=
  s.txPending = 0 ∧ s.txTodoIdx = 0 ∧ s.txDoneIdx = 0 ∧ s.stats = stats ∧
    (∀ i, tbdOwn (s.slot i).stat = false) ∧ (∀ task, s.call task = none) ∧
    s.completing = false ∧ s.accepted = [] ∧ s.reaped = 0 ∧ s.sent = []

/-- All runs of the transmit side. -/
def ethTxSystem (txBufNum frameMaxSize : Nat) (stats : TxStats) : System EthTx TxAct where
  init := EthTx.Opened stats
  step := ethTxStep txBufNum frameMaxSize

end LinuxStm32.Drivers.Net
