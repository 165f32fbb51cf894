import LinuxStm32.Base.System
import LinuxStm32.Base.Word
import Mathlib.Logic.Function.Basic

/-!
# Receive ring of the Ethernet driver

`drivers/net/arm/stm32_eth.c:786–912, 982–1034`. `stm32_eth_rx_poll` runs from `net_rx_action`
while NAPI is scheduled; `stm32_eth_irq` interrupts it anywhere but under `rx_lock`, which the
poll takes with interrupts off. There is one processor, so the poll waits for the handler. Every
access to a register, a descriptor or the state of NAPI is a step of its own, and so is a
read-modify-write of `dmaier`: the handler leaves that register alone while NAPI is scheduled.
The DMA completes descriptors in ring order at any time; it and the transmit side may raise any
other bit of the status register at any time, and the handler may be entered whenever interrupts
are not masked, since it serves transmit events too.

The model starts where `stm32_netdev_open` has started the DMA and requested the interrupt; its
write to `dmaier` is the step `enable`. `napi_disable` is not in progress, so
`napi_schedule_prep` fails only if NAPI is scheduled. The frame buffers go with the descriptors.
`completed`, `consumed` and `received` record the history and are read by no operation.
-/

namespace LinuxStm32.Drivers.Net

open Base

/-- A descriptor and the buffer it points to. -/
structure RxSlot where
  stat : BitVec 32
  data : List UInt8
  deriving DecidableEq, Repr

/-- `STM32_DMA_RBD_DMA_OWN` of a status word. -/
def rbdOwn (stat : BitVec 32) : Bool := stat.getLsbD 31

/-- `STM32_MAC_DMASR_RX_MSK`: `RS`, `ROS` and `RBUS`. -/
def dmasrRxMsk : BitVec 32 := 0xD0#32

/-- `STM32_MAC_DMASR_RS`. -/
def dmasrRs : BitVec 32 := 1#32 <<< 6

/-- A status word has `RS`. -/
def hasRs (status : BitVec 32) : Bool := status.getLsbD 6

/-- The counters of `struct net_device_stats` the receive side updates. -/
structure RxStats where
  rxPackets : Nat
  rxBytes : Nat
  rxErrors : Nat
  rxDropped : Nat
  rxLengthErrors : Nat
  rxOverErrors : Nat
  rxCrcErrors : Nat
  rxFrameErrors : Nat
  rxFifoErrors : Nat
  deriving DecidableEq, Repr

/-- Points of `stm32_eth_rx_poll` and, up to `advance`, of `stm32_eth_rx_get`. -/
inductive PollPc
  /-- Head of the loop of `stm32_eth_rx_get`. -/
  | get
  | frame
  | giveBack
  | advance
  /-- After `stm32_eth_rx_get`. -/
  | got
  | enable
  | check
  | mask
  | ack
  | unlock
  | again
  deriving DecidableEq, Repr

/-- The points between `spin_lock_irqsave` and `spin_unlock_irqrestore`. -/
def PollPc.locked : PollPc → Bool
  | .enable | .check | .mask | .ack | .unlock => true
  | _ => false

/-- A run of `stm32_eth_rx_poll` with its variables. -/
structure Poll where
  pc : PollPc
  rx : Nat
  budget : Nat
  more : Bool
  deriving DecidableEq, Repr

/-- Points of `stm32_eth_irq` with the status it has read. -/
inductive IrqPc
  | ack (status : BitVec 32)
  | rx (status : BitVec 32)
  /-- NAPI is marked as scheduled, `RIE` is still to be cleared. -/
  | mask
  deriving DecidableEq, Repr

/-- The receive side of the device, the poll and the handler under way, and the history. -/
structure EthRx where
  slot : Nat → RxSlot
  rxDoneIdx : Nat
  /-- The descriptor the DMA comes to next. -/
  dmaIdx : Nat
  dmasr : BitVec 32
  /-- `STM32_MAC_DMAIER_RIE` of `dmaier`. -/
  rie : Bool
  opened : Bool
  /-- `NAPI_STATE_SCHED`. -/
  sched : Bool
  stats : RxStats
  received : List (List UInt8)
  poll : Option Poll
  irq : Option IrqPc
  completed : List RxSlot
  consumed : List RxSlot

/-- Counters after a frame with errors; `drivers/net/arm/stm32_eth.c:808–818`. -/
def RxStats.error (st : RxStats) (stat : BitVec 32) : RxStats :=
  { st with
    rxErrors := wadd st.rxErrors 1
    rxLengthErrors := if stat.getLsbD 12 then wadd st.rxLengthErrors 1 else st.rxLengthErrors
    rxFifoErrors := if stat.getLsbD 11 then wadd st.rxFifoErrors 1 else st.rxFifoErrors
    rxCrcErrors := if stat.getLsbD 1 then wadd st.rxCrcErrors 1 else st.rxCrcErrors
    rxFrameErrors :=
      if stat.getLsbD 9 && stat.getLsbD 8 then st.rxFrameErrors else wadd st.rxFrameErrors 1 }

/-- Length of a frame without its CRC. -/
def rxLen (stat : BitVec 32) : Nat := wsub ((stat >>> 16) &&& 0x3FFF#32).toNat 4

namespace EthRx

/-- Serve the frame of a descriptor; `drivers/net/arm/stm32_eth.c:806–858`. `skb` says whether a
buffer could be allocated. -/
def rxFrame (s : EthRx) (skb : Bool) : EthRx :=
  let t := s.slot s.rxDoneIdx
  if t.stat.getLsbD 15 then { s with stats := s.stats.error t.stat }
  else
    let len := rxLen t.stat
    if skb then
      { s with
        received := s.received ++ [t.data.take len]
        stats := { s.stats with
          rxPackets := wadd s.stats.rxPackets 1
          rxBytes := wadd s.stats.rxBytes len } }
    else { s with stats := { s.stats with rxDropped := wadd s.stats.rxDropped 1 } }

/-- The poll goes on at another point. -/
def goto (s : EthRx) (p : Poll) (pc : PollPc) : EthRx := { s with poll := some { p with pc := pc } }

/-- One step of `stm32_eth_rx_poll`. -/
def pollStep (rxBufNum : Nat) (skb : Bool) (p : Poll) (s : EthRx) : EthRx :=
  let t := s.slot s.rxDoneIdx
  match p.pc with
  | .get => if p.rx < p.budget ∧ rbdOwn t.stat = false then s.goto p .frame else s.goto p .got
  | .frame => (s.rxFrame skb).goto p .giveBack
  | .giveBack =>
    { s with
      slot := Function.update s.slot s.rxDoneIdx { t with stat := 1#32 <<< 31 }
      poll := some { p with pc := .advance }
      consumed := s.consumed ++ [t] }
  | .advance =>
    { s with
      rxDoneIdx := (s.rxDoneIdx + 1) % rxBufNum
      poll := some { p with pc := .get, rx := p.rx + 1 } }
  | .got =>
    if p.rx < p.budget then
      -- `spin_lock_irqsave` and `__napi_complete`
      { s with sched := false, poll := some { p with pc := .enable } }
    else
      -- The whole budget is used: NAPI stays scheduled.
      { s with rie := true, poll := none }
  | .enable => { s with rie := true, poll := some { p with pc := .check } }
  | .check => if rbdOwn t.stat = false then s.goto p .mask else s.goto p .unlock
  | .mask => { s with rie := false, poll := some { p with pc := .ack } }
  | .ack =>
    { s with
      dmasr := s.dmasr &&& ~~~dmasrRxMsk, poll := some { p with pc := .unlock, more := true } }
  | .unlock => s.goto p .again
  | .again =>
    -- `more && napi_reschedule`
    if p.more = true ∧ s.sched = false then
      { s with sched := true, poll := some { p with pc := .get, more := false } }
    else { s with poll := none }

/-- Interrupts are off. -/
def masked (s : EthRx) : Bool :=
  match s.poll with
  | some p => p.pc.locked
  | none => false

/-- One step of `stm32_eth_irq` after its read of `dmasr`. -/
def irqStep (s : EthRx) (h : IrqPc) : EthRx :=
  match h with
  | .ack status =>
    { s with
      dmasr := s.dmasr &&& ~~~status
      irq := if status = 0#32 then none else some (.rx status) }
  | .rx status =>
    if status &&& dmasrRxMsk ≠ 0#32 then
      let stats := { s.stats with
        rxOverErrors :=
          if status.getLsbD 4 then wadd s.stats.rxOverErrors 1 else s.stats.rxOverErrors }
      -- `napi_schedule_prep`
      if s.sched then { s with stats := stats, irq := none }
      else { s with stats := stats, sched := true, irq := some .mask }
    else { s with irq := none }
  | .mask => { s with rie := false, irq := none }

end EthRx

/-- What the poll, the interrupt, the DMA and `stm32_netdev_open` do next. -/
inductive RxAct
  /-- `net_rx_action` calls the poll. -/
  | start (budget : Nat)
  | poll (skb : Bool)
  /-- Entry of `stm32_eth_irq`. -/
  | fire
  | irq
  | dma (t : RxSlot)
  | event (bits : BitVec 32)
  | enable
  deriving DecidableEq, Repr

/-- One step. -/
def ethRxStep (rxBufNum : Nat) (s : EthRx) : RxAct → Option EthRx
  | .start budget =>
    if s.sched ∧ s.poll = none ∧ s.irq = none ∧ 1 ≤ budget then
      some { s with poll := some ⟨.get, 0, budget, false⟩ }
    else none
  | .poll skb =>
    match s.poll, s.irq with
    | some p, none => some (s.pollStep rxBufNum skb p)
    | _, _ => none
  | .fire =>
    if s.irq = none ∧ s.masked = false then some { s with irq := some (.ack s.dmasr) } else none
  | .irq => s.irq.map fun h => s.irqStep h
  | .dma t =>
    if rbdOwn (s.slot s.dmaIdx).stat ∧ rbdOwn t.stat = false then
      some { s with
        slot := Function.update s.slot s.dmaIdx t
        dmaIdx := (s.dmaIdx + 1) % rxBufNum
        dmasr := s.dmasr ||| dmasrRs
        completed := s.completed ++ [t] }
    else none
  | .event bits => some { s with dmasr := s.dmasr ||| bits }
  | .enable => some { s with rie := true, opened := true }

/-- The device when the interrupt has been requested: all descriptors belong to the DMA, which
is at the first. The status register and the counters are whatever earlier use left. -/
def EthRx.Started (s : EthRx) : Prop :=
  (∀ i, rbdOwn (s.slot i).stat = true) ∧ s.rxDoneIdx = 0 ∧ s.dmaIdx = 0 ∧ s.rie = false ∧
    s.opened = false ∧ s.sched = false ∧ s.poll = none ∧ s.irq = none ∧ s.completed = [] ∧
    s.consumed = [] ∧ s.received = []

/-- All runs of the receive side. -/
def ethRxSystem (rxBufNum : Nat) : System EthRx RxAct where
  init := EthRx.Started
  step := ethRxStep rxBufNum

/-! ### The cases of a step -/

/-- The frame in the buffer of a descriptor, without its CRC. -/
def RxSlot.frame (t : RxSlot) : List UInt8 := t.data.take (rxLen t.stat)

/-- `ES` is not set. -/
def RxSlot.intact (t : RxSlot) : Bool := !t.stat.getLsbD 15

/-- The next descriptor has been completed. -/
def EthRx.Pending (s : EthRx) : Prop := rbdOwn (s.slot s.rxDoneIdx).stat = false

/-- The cases of a step of the poll. -/
inductive PollCase (n : Nat) (skb : Bool) (s : EthRx) (p : Poll) : PollPc → EthRx → Prop
  | take (hlt : p.rx < p.budget) (hd : s.Pending) :
    PollCase n skb s p .get { s with poll := some { p with pc := .frame } }
  | leave (hd : p.rx < p.budget → ¬ s.Pending) :
    PollCase n skb s p .get { s with poll := some { p with pc := .got } }
  | frame (stats : RxStats) (received : List (List UInt8))
      (hr : received = s.received ++
        ([s.slot s.rxDoneIdx].filter fun t => skb && t.intact).map RxSlot.frame) :
    PollCase n skb s p .frame
      { s with stats := stats, received := received, poll := some { p with pc := .giveBack } }
  | giveBack (t : RxSlot) (ht : rbdOwn t.stat = true) :
    PollCase n skb s p .giveBack { s with
      slot := Function.update s.slot s.rxDoneIdx t
      poll := some { p with pc := .advance }
      consumed := s.consumed ++ [s.slot s.rxDoneIdx] }
  | advance : PollCase n skb s p .advance { s with
      rxDoneIdx := (s.rxDoneIdx + 1) % n
      poll := some { p with pc := .get, rx := p.rx + 1 } }
  | complete (hlt : p.rx < p.budget) :
    PollCase n skb s p .got { s with sched := false, poll := some { p with pc := .enable } }
  | full (hge : p.budget ≤ p.rx) : PollCase n skb s p .got { s with rie := true, poll := none }
  | enable : PollCase n skb s p .enable { s with rie := true, poll := some { p with pc := .check } }
  | more (hd : s.Pending) : PollCase n skb s p .check { s with poll := some { p with pc := .mask } }
  | done (hd : ¬ s.Pending) :
    PollCase n skb s p .check { s with poll := some { p with pc := .unlock } }
  | mask : PollCase n skb s p .mask { s with rie := false, poll := some { p with pc := .ack } }
  | ack : PollCase n skb s p .ack { s with
      dmasr := s.dmasr &&& ~~~dmasrRxMsk
      poll := some { p with pc := .unlock, more := true } }
  | unlock : PollCase n skb s p .unlock { s with poll := some { p with pc := .again } }
  | again (hm : p.more = true) (hs : s.sched = false) : PollCase n skb s p .again
      { s with sched := true, poll := some { p with pc := .get, more := false } }
  | exit (hm : p.more = true → s.sched = true) : PollCase n skb s p .again { s with poll := none }

/-- The cases of a step. -/
inductive RxCase (n : Nat) (s : EthRx) : RxAct → EthRx → Prop
  | start (budget : Nat) (hs : s.sched = true) (hp : s.poll = none) (hb : 1 ≤ budget) :
    RxCase n s (.start budget) { s with poll := some ⟨.get, 0, budget, false⟩ }
  | poll (skb : Bool) (p : Poll) (pc : PollPc) (s' : EthRx) (hp : s.poll = some p)
      (hi : s.irq = none) (hpc : p.pc = pc) (hc : PollCase n skb s p pc s') :
        RxCase n s (.poll skb) s'
  | fire (hi : s.irq = none) (hm : s.masked = false) :
    RxCase n s .fire { s with irq := some (.ack s.dmasr) }
  | irqAck (status : BitVec 32) (hi : s.irq = some (.ack status)) :
    RxCase n s .irq { s with
      dmasr := s.dmasr &&& ~~~status
      irq := if status = 0#32 then none else some (.rx status) }
  | irqSched (status : BitVec 32) (hi : s.irq = some (.rx status)) (hs : s.sched = false)
      (stats : RxStats) :
    RxCase n s .irq { s with stats := stats, sched := true, irq := some .mask }
  | irqDone (status : BitVec 32) (hi : s.irq = some (.rx status))
      (hs : s.sched = false → status &&& dmasrRxMsk = 0#32) (stats : RxStats) :
    RxCase n s .irq { s with stats := stats, irq := none }
  | irqMask (hi : s.irq = some .mask) : RxCase n s .irq { s with rie := false, irq := none }
  | dma (t : RxSlot) (hown : rbdOwn (s.slot s.dmaIdx).stat = true)
      (ht : rbdOwn t.stat = false) :
    RxCase n s (.dma t) { s with
      slot := Function.update s.slot s.dmaIdx t
      dmaIdx := (s.dmaIdx + 1) % n
      dmasr := s.dmasr ||| dmasrRs
      completed := s.completed ++ [t] }
  | event (bits : BitVec 32) : RxCase n s (.event bits) { s with dmasr := s.dmasr ||| bits }
  | opens : RxCase n s .enable { s with rie := true, opened := true }

theorem rbdOwn_own : rbdOwn (1#32 <<< 31) = true := by decide

namespace EthRx

variable {n : Nat} {s s' : EthRx} {a : RxAct}

private theorem pollStep_case (skb : Bool) (p : Poll) :
    PollCase n skb s p p.pc (s.pollStep n skb p) := by
  rw [pollStep]
  cases p.pc with
  | get =>
    dsimp only
    split
    · next h => exact .take h.1 h.2
    · next h => exact .leave fun hlt hd => h ⟨hlt, hd⟩
  | frame =>
    dsimp only [rxFrame]
    split
    · next hes =>
      have hbad : (s.slot s.rxDoneIdx).intact = false := by rw [RxSlot.intact, hes, Bool.not_true]
      exact .frame _ _ (by simp [hbad])
    · next hes =>
      have hgood : (s.slot s.rxDoneIdx).intact = true := by simpa [RxSlot.intact] using hes
      split
      · next hskb => exact .frame _ _ (by simp [hgood, hskb, RxSlot.frame])
      · next hskb => exact .frame _ _ (by simp [hskb])
  | giveBack => exact .giveBack _ rbdOwn_own
  | got =>
    dsimp only
    split
    · next h => exact .complete h
    · next h => exact .full (Nat.not_lt.mp h)
  | check =>
    dsimp only
    split
    · next h => exact .more h
    · next h => exact .done h
  | again =>
    dsimp only
    split
    · next h => exact .again h.1 h.2
    · next h => exact .exit fun hm => by simpa [hm] using h
  | advance | enable | mask | ack | unlock => constructor

private theorem irqStep_case {h : IrqPc} (hi : s.irq = some h) :
    RxCase n s .irq (s.irqStep h) := by
  cases h with
  | ack status => exact .irqAck status hi
  | rx status =>
    rw [irqStep]
    split
    · dsimp only
      split
      · next hs => exact .irqDone status hi (fun h => absurd (hs.symm.trans h) (by decide)) _
      · next hs => exact .irqSched status hi (by simpa using hs) _
    · next h => exact .irqDone status hi (fun _ => not_not.mp h) s.stats
  | mask => exact .irqMask hi

/-- A step is one of the cases. -/
theorem step_case (h : ethRxStep n s a = some s') : RxCase n s a s' := by
  cases a with
  | start budget =>
    rw [ethRxStep] at h
    split at h
    · next hc =>
      cases h
      exact .start budget hc.1 hc.2.1 hc.2.2.2
    · cases h
  | poll skb =>
    rw [ethRxStep] at h
    split at h
    · next p hp hi =>
      cases h
      exact .poll skb p _ _ hp hi rfl (pollStep_case skb p)
    · cases h
  | fire =>
    rw [ethRxStep] at h
    split at h
    · next hc =>
      cases h
      exact .fire hc.1 hc.2
    · cases h
  | irq =>
    rw [ethRxStep, Option.map_eq_some_iff] at h
    obtain ⟨pc, hi, rfl⟩ := h
    exact irqStep_case hi
  | dma t =>
    rw [ethRxStep] at h
    split at h
    · next hc =>
      cases h
      exact .dma t hc.1 hc.2
    · cases h
  | event bits =>
    cases h
    exact .event bits
  | enable =>
    cases h
    exact .opens

end EthRx

end LinuxStm32.Drivers.Net
