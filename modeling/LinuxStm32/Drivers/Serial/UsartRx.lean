import LinuxStm32.Base.System
import Mathlib.Data.List.Basic

/-!
# Receive side of the USART driver

`drivers/serial/stm32_usart.c:993–1148` for the STM32F7, with two DMA buffers. The stream
writes received bytes into the two buffers in turn; the handlers infer its position from the
`CT` bit and `NDTR`. Every register access of `stm32_receive` and every character read from
a buffer is a step of its own, so the stream and the line can act between any two of them.
A step of the stream that would leave the buffer after the reader's is not part of any run.
`rx`, `seen` and `turn` record the history and are read by no operation.
-/

namespace LinuxStm32.Drivers.Serial

open Base

/-- `STM32_DMA_RX_BUF_LEN`, `drivers/serial/stm32_usart.c:68`. -/
def rxBufLen : Nat := 512

/-- Where a handler stands, with the locals of `stm32_receive` that are live there; `usart`
tells `stm32_usart_isr` from `stm32_dma_isr`. -/
inductive RxPc
  | none
  | readCt (usart : Bool)
  | readNdtr (usart : Bool) (newWbuf : Nat)
  | checkCt (usart : Bool) (newWbuf newWpos : Nat)
  | rereadNdtr (usart : Bool) (newWbuf : Nat)
  | update (usart : Bool) (newWbuf newWpos : Nat)
  | fetch (usart wrap : Bool)
  | readIsr (usart : Bool)
  | writeIfcr (usart ht tc : Bool)
  | clearIdle
  deriving DecidableEq, Repr

/-- The stream, the USART, the driver's private data and the characters passed on. -/
structure UsartRx where
  /-- `CT`: the buffer the stream writes to. -/
  ct : Nat
  ndtr : Nat
  htif : Bool
  tcif : Bool
  rxb : Nat → Nat → UInt8
  /-- The USART's `IDLE` flag. -/
  idle : Bool
  lineIdle : Bool
  wbuf : Nat
  wpos : Nat
  rbuf : Nat
  rpos : Nat
  pc : RxPc
  tty : List UInt8
  /-- The bytes received so far. -/
  rx : List UInt8
  /-- How many bytes had been received at the last read of `NDTR`. -/
  seen : Nat
  /-- How many buffers the reader has finished and left. -/
  turn : Nat

/-- The stream stores one byte. At half of a buffer it sets `HT`; at its end it sets `TC`,
flips `CT` and reloads `NDTR`. It does not run into the reader's buffer from behind. -/
def dmaByte (c : UInt8) (s : UsartRx) : Option UsartRx :=
  if s.ct ≠ s.rbuf ∧ s.ndtr = 1 then none
  else some { s with
    rxb := fun b p => if b = s.ct ∧ p = rxBufLen - s.ndtr then c else s.rxb b p
    ct := if s.ndtr = 1 then 1 - s.ct else s.ct
    ndtr := if s.ndtr = 1 then rxBufLen else s.ndtr - 1
    htif := s.htif || s.ndtr == rxBufLen / 2 + 1
    tcif := s.tcif || s.ndtr == 1
    lineIdle := false
    rx := s.rx ++ [c] }

/-- Where `stm32_receive` returns to: `stm32_usart_isr` still has to clear `IDLE`. -/
def endReceive (usart : Bool) : RxPc := if usart then .clearIdle else .none

/-- The writer and reader positions from a sample of the stream;
`drivers/serial/stm32_usart.c:1025–1069`. -/
def rxUpdate (usart : Bool) (newWbuf ndtr : Nat) (s : UsartRx) : UsartRx :=
  let newWpos := rxBufLen - ndtr
  if newWbuf = s.wbuf then { s with wpos := newWpos, pc := .fetch usart false }
  else if s.rpos = rxBufLen then
    { s with
      rpos := 0, wpos := newWpos, wbuf := newWbuf, rbuf := newWbuf
      pc := .fetch usart false
      turn := s.turn + 1 }
  else { s with wpos := rxBufLen, pc := .fetch usart true }

/-- The next access of the running handler. -/
def rxRun (s : UsartRx) : Option UsartRx :=
  match s.pc with
  | .none => none
  | .readCt usart => some { s with pc := .readNdtr usart s.ct }
  | .readNdtr usart newWbuf =>
    some { s with pc := .checkCt usart newWbuf s.ndtr, seen := s.rx.length }
  | .checkCt usart newWbuf newWpos =>
    some { s with
      pc := if newWbuf = s.ct then .update usart newWbuf newWpos else .rereadNdtr usart s.ct }
  | .rereadNdtr usart newWbuf =>
    some { s with pc := .update usart newWbuf s.ndtr, seen := s.rx.length }
  | .update usart newWbuf newWpos => some (rxUpdate usart newWbuf newWpos s)
  | .fetch usart wrap =>
    if s.rpos < s.wpos then
      some { s with tty := s.tty ++ [s.rxb s.rbuf s.rpos], rpos := s.rpos + 1 }
    else some { s with pc := if wrap then endReceive usart else .readIsr usart }
  | .readIsr usart =>
    some { s with
      pc := if s.htif || s.tcif then .writeIfcr usart s.htif s.tcif else endReceive usart }
  | .writeIfcr usart ht tc =>
    some { s with htif := s.htif && !ht, tcif := s.tcif && !tc, pc := endReceive usart }
  | .clearIdle => some { s with idle := false, pc := .none }

/-- What happens next: a byte, the end of a burst on the line, one of the two interrupts, or
the next access of the running handler. -/
inductive RxAct
  | byte (c : UInt8)
  | lineIdle
  | usartIrq
  | dmaIrq
  | run
  deriving DecidableEq, Repr

/-- One step. The handlers do not interrupt each other. -/
def usartRxStep (s : UsartRx) : RxAct → Option UsartRx
  | .byte c => dmaByte c s
  | .lineIdle => if s.lineIdle then none else some { s with idle := true, lineIdle := true }
  | .usartIrq =>
    if s.pc = .none ∧ s.idle then some { s with pc := .readCt true } else none
  | .dmaIrq =>
    if s.pc = .none ∧ (s.htif ∨ s.tcif) then some { s with pc := .readCt false } else none
  | .run => rxRun s

/-- The state `stm_port_startup` leaves, with the stream just enabled on an idle line;
`drivers/serial/stm32_usart.c:470–543`. -/
def UsartRx.Started (s : UsartRx) : Prop :=
  s.ct = 0 ∧ s.ndtr = rxBufLen ∧ s.htif = false ∧ s.tcif = false ∧ s.idle = false ∧
    s.lineIdle = true ∧ s.wbuf = 0 ∧ s.wpos = 0 ∧ s.rbuf = 0 ∧ s.rpos = 0 ∧ s.pc = .none ∧
    s.tty = [] ∧ s.rx = [] ∧ s.seen = 0 ∧ s.turn = 0

/-- All runs of the receive side. -/
def usartRxSystem : System UsartRx RxAct where
  init := UsartRx.Started
  step := usartRxStep

end LinuxStm32.Drivers.Serial
