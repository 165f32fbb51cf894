import LinuxStm32.Base.System
import LinuxStm32.Base.Word
import LinuxStm32.Mach.DmacApi

/-!
# The MMC host driver

`drivers/mmc/host/mmci.c:346–512, 633–912, 1083–1156` with `CONFIG_STM32_SD_DMA`. The
controller executes one command at a time and raises one event for it; data events it may
raise at any time. The interrupt handler samples the status word, then handles its data part
and its command part; each of the three is a step, and so is every call of
`mmc_request_done`, during which the lock is free and the core may issue its next request.
Requests are numbered in the order of issue. The interrupt mask never changes, so status
words are those with masked bits removed. `log` and `refused` record the history and are read
by no operation.
-/

namespace LinuxStm32.Drivers.Mmc

open Base Mach

/-- The flags of `struct mmc_command` the driver looks at, with opcode and argument. -/
structure MmcCommand where
  opcode : Nat
  arg : Nat
  rspPresent : Bool
  rsp136 : Bool
  rspCrc : Bool
  deriving DecidableEq, Repr

/-- `struct mmc_data` with its one scatterlist entry at bus address `addr`. -/
structure MmcData where
  read : Bool
  blksz : Nat
  blocks : Nat
  addr : BitVec 32
  deriving DecidableEq, Repr

/-- `struct mmc_request` under its number. -/
structure MmcRequest where
  id : Nat
  cmd : MmcCommand
  data : Option MmcData
  stop : Option MmcCommand
  deriving DecidableEq, Repr

/-- A command of a request: its own or its stop command, which has no data. -/
structure ReqCmd where
  req : MmcRequest
  stop : Bool
  cmd : MmcCommand
  deriving DecidableEq, Repr

/-- `cmd->data`. -/
def ReqCmd.data (c : ReqCmd) : Option MmcData := if c.stop then none else c.req.data

/-- The data of a request; `data->stop` and `data->mrq` are the request's. -/
structure ReqData where
  req : MmcRequest
  data : MmcData
  deriving DecidableEq, Repr

/-- The bits of `MMCISTATUS` that belong to the command path. -/
structure CmdBits where
  crcFail : Bool
  timeout : Bool
  respEnd : Bool
  sent : Bool
  deriving DecidableEq, Repr

/-- The bits of `MMCISTATUS` that belong to the data path. -/
structure DataBits where
  crcFail : Bool
  timeout : Bool
  txUnderrun : Bool
  rxOverrun : Bool
  startBitErr : Bool
  dataEnd : Bool
  deriving DecidableEq, Repr

def CmdBits.zero : CmdBits := ⟨false, false, false, false⟩

def DataBits.zero : DataBits := ⟨false, false, false, false, false, false⟩

/-- Some bit is set. -/
def CmdBits.any (b : CmdBits) : Bool := b.crcFail || b.timeout || b.respEnd || b.sent

/-- Some bit that reports an error is set. -/
def DataBits.error (b : DataBits) : Bool :=
  b.crcFail || b.timeout || b.txUnderrun || b.rxOverrun || b.startBitErr

/-- Some bit is set. -/
def DataBits.any (b : DataBits) : Bool := b.error || b.dataEnd

/-- Bits already set stay set when the controller raises more. -/
def CmdBits.or (a b : CmdBits) : CmdBits :=
  ⟨a.crcFail || b.crcFail, a.timeout || b.timeout, a.respEnd || b.respEnd, a.sent || b.sent⟩

/-- Bits already set stay set when the controller raises more. -/
def DataBits.or (a b : DataBits) : DataBits :=
  ⟨a.crcFail || b.crcFail, a.timeout || b.timeout, a.txUnderrun || b.txUnderrun,
    a.rxOverrun || b.rxOverrun, a.startBitErr || b.startBitErr, a.dataEnd || b.dataEnd⟩

/-- A sampled status word. -/
structure Status where
  cmd : CmdBits
  data : DataBits
  deriving DecidableEq, Repr

/-- How the controller ends a command. -/
inductive CmdEvent
  | respEnd
  | sent
  | timeout
  | crcFail
  deriving DecidableEq, Repr

/-- The status bit of an event. -/
def CmdEvent.bits : CmdEvent → CmdBits
  | .respEnd => ⟨false, false, true, false⟩
  | .sent => ⟨false, false, false, true⟩
  | .timeout => ⟨false, true, false, false⟩
  | .crcFail => ⟨true, false, false, false⟩

/-- `cmd->error` from the status bits; `drivers/mmc/host/mmci.c:899–903`. -/
def CmdBits.cmdError (b : CmdBits) (cmd : MmcCommand) : Int :=
  if b.timeout then -110 else if b.crcFail && cmd.rspCrc then -84 else 0

/-- `data->error` from the status bits; `drivers/mmc/host/mmci.c:823–830`. -/
def DataBits.dataError (b : DataBits) : Int :=
  if b.crcFail then -84
  else if b.timeout then -110
  else if b.startBitErr then -11
  else if b.txUnderrun || b.rxOverrun then -5
  else 0

/-- The four response registers. -/
structure Resp where
  r0 : Nat
  r1 : Nat
  r2 : Nat
  r3 : Nat
  deriving DecidableEq, Repr

/-- What has happened to one command: sent, ended by the controller with these response
registers, and filled in by the driver. -/
structure CmdLog where
  sent : Option MmcCommand
  event : Option (CmdEvent × Resp)
  out : Option (Resp × Int)
  deriving DecidableEq, Repr

def CmdLog.empty : CmdLog := ⟨none, none, none⟩

/-- Where `mmci_irq` stands: about to sample the status, to handle its data part, in a call
of `mmc_request_done` made there, to handle its command part, in a call made there. -/
inductive IrqPc
  | idle
  | sample
  | data (st : Status)
  | dataDone (st : Status)
  | cmd (st : Status)
  | cmdDone (st : Status)
  deriving DecidableEq, Repr

/-- `STM32F2_DMACH_SDIO`, `mach/dmainit.h:67`. -/
def dmachSdio : Nat := 11

/-- The driver's `struct mmci_host`, the controller, the DMA controllers and the history. -/
structure Mmci where
  mrq : Option MmcRequest
  cmd : Option ReqCmd
  data : Option ReqData
  dataXfered : Nat
  /-- The command in the controller's command register. -/
  active : Option ReqCmd
  statusCmd : CmdBits
  statusData : DataBits
  resp : Resp
  dma : Dmac
  /-- Result of the last attempt to start the channel. -/
  dmaRv : Int
  pc : IrqPc
  /-- A `BUG_ON` or a missing request was met. -/
  bug : Bool
  issued : Nat
  /-- The finished requests with `data->bytes_xfered`. -/
  ended : List (Nat × Nat)
  dataError : Nat → Int
  log : Nat → Bool → CmdLog
  refused : Nat → Bool

/-- The channel is enabled. -/
def Mmci.dmaEn (s : Mmci) : Bool := (s.dma.regs dmachSdio).cr &&& crEn ≠ 0#32

/-- The history with the entry of one command changed. -/
def Mmci.setLog (s : Mmci) (c : ReqCmd) (f : CmdLog → CmdLog) : Nat → Bool → CmdLog :=
  fun k b => if k = c.req.id ∧ b = c.stop then f (s.log k b) else s.log k b

/-- `mmc_dma_rx_start` and `mmc_dma_tx_start`, `drivers/mmc/host/mmci.c:346, 432`, which
differ in the direction; with the code of the call that failed. -/
def mmcDmaStart (dir : BitVec 8) (addr : BitVec 32) (d : Dmac) : Int × Dmac :=
  let init := d.chInit dmachSdio dir 1 3 0 0
  if init.1 < 0 then init
  else
    let fifo := init.2.chInitFifo dmachSdio 1 3
    if fifo.1 < 0 then fifo
    else
      let periph := fifo.2.chSetPeriph dmachSdio (0x40012C00 + 0x80) 0 2 1
      if periph.1 < 0 then periph
      else
        let memory := periph.2.chSetMemory dmachSdio addr 1 2 1
        if memory.1 < 0 then memory
        else
          let nitems := memory.2.chSetNitems dmachSdio 0
          if nitems.1 < 0 then nitems else nitems.2.chEnable dmachSdio true

/-- `mmci_stop_data`, `drivers/mmc/host/mmci.c:680`. -/
def mmciStopData (s : Mmci) : Mmci := { s with data := none }

/-- `mmci_request_end`, `drivers/mmc/host/mmci.c:633`, up to its call of
`mmc_request_done`. The write of zero to the command register drops an unfinished command. -/
def mmciRequestEnd (s : Mmci) (mrq : MmcRequest) : Mmci :=
  { s with
    active := none
    bug := s.bug || s.data.isSome
    mrq := none
    cmd := none
    ended := (mrq.id, if mrq.data.isSome then s.dataXfered else 0) :: s.ended }

/-- `mmci_start_data`, `drivers/mmc/host/mmci.c:699`. The buffer is taken from the current
request, whose data must not be missing. -/
def mmciStartData (s : Mmci) (d : ReqData) : Mmci :=
  let s := { s with data := some d, dataXfered := 0 }
  match s.mrq.bind MmcRequest.data with
  | none => { s with bug := true }
  | some reqdata =>
    let start := mmcDmaStart (if d.data.read then 0 else 1) reqdata.addr s.dma
    { s with dma := start.2, dmaRv := start.1 }

/-- `mmci_start_command`, `drivers/mmc/host/mmci.c:780`. -/
def mmciStartCommand (s : Mmci) (c : ReqCmd) : Mmci :=
  { s with
    cmd := some c
    active := some c
    log := s.setLog c fun l => { l with sent := some c.cmd } }

/-- `mmci_data_irq`, `drivers/mmc/host/mmci.c:807`, and where the handler goes on. -/
def mmciDataIrq (s : Mmci) (d : ReqData) (st : Status) : Mmci :=
  let s := mmciStopData { s with
    dataXfered := if st.data.dataEnd then wadd s.dataXfered (wmul d.data.blksz d.data.blocks)
      else s.dataXfered
    dataError := fun k =>
      if st.data.error ∧ k = d.req.id then st.data.dataError else s.dataError k
    dma := (s.dma.chEnable dmachSdio false).2 }
  match d.req.stop with
  | none => { mmciRequestEnd s d.req with pc := .dataDone st }
  | some stop => { mmciStartCommand s ⟨d.req, true, stop⟩ with pc := .cmd st }

/-- The result part of `mmci_cmd_irq`: the command takes the response registers and the
error of the status word; `drivers/mmc/host/mmci.c:892–903`. -/
def cmdResult (s : Mmci) (c : ReqCmd) (st : Status) : Mmci :=
  { s with
    cmd := none
    log := s.setLog c fun l => { l with out := some (s.resp, st.cmd.cmdError c.cmd) } }

/-- `mmci_cmd_irq`, `drivers/mmc/host/mmci.c:886`, and where the handler goes on. Stopping a
data phase that is not there changes nothing. -/
def mmciCmdIrq (s : Mmci) (c : ReqCmd) (st : Status) : Mmci :=
  let s := cmdResult s c st
  if st.cmd.cmdError c.cmd ≠ 0 then
    { mmciRequestEnd (mmciStopData s) c.req with pc := .cmdDone st }
  else
    match c.data with
    | none => { mmciRequestEnd (mmciStopData s) c.req with pc := .cmdDone st }
    | some d =>
      if d.read then { s with pc := .sample }
      else { mmciStartData s ⟨c.req, d⟩ with pc := .sample }

/-- `is_power_of_2`. -/
def isPowerOf2 (n : Nat) : Bool := n != 0 && n &&& (n - 1) == 0

/-- `mmci_request`, `drivers/mmc/host/mmci.c:1131`: an unsupported block size is refused with
`-EINVAL` before anything is sent. -/
def mmciRequest (s : Mmci) (mrq : MmcRequest) : Mmci :=
  match mrq.data with
  | some d =>
    if isPowerOf2 d.blksz = false then
      { s with
        ended := (mrq.id, 0) :: s.ended
        refused := fun k => if k = mrq.id then true else s.refused k }
    else
      let s := { s with mrq := some mrq }
      let s := if d.read then mmciStartData s ⟨mrq, d⟩ else s
      mmciStartCommand s ⟨mrq, false, mrq.cmd⟩
  | none => mmciStartCommand { s with mrq := some mrq } ⟨mrq, false, mrq.cmd⟩

/-- The next step of the handler; `drivers/mmc/host/mmci.c:1091–1124`. The loop ends with a
status word of zero. -/
def mmciIrqRun (s : Mmci) : Option Mmci :=
  match s.pc with
  | .idle => none
  | .sample =>
    some { s with
      pc := .data ⟨s.statusCmd, s.statusData⟩
      statusCmd := .zero
      statusData := .zero }
  | .data st =>
    match s.data with
    | some d => if st.data.any then some (mmciDataIrq s d st) else some { s with pc := .cmd st }
    | none => some { s with pc := .cmd st }
  | .dataDone st => some { s with pc := .cmd st }
  | .cmd st =>
    match s.cmd with
    | some c =>
      if st.cmd.any then some (mmciCmdIrq s c st)
      else some { s with pc := if st.data.any then .sample else .idle }
    | none => some { s with pc := if st.cmd.any || st.data.any then .sample else .idle }
  | .cmdDone _ => some { s with pc := .sample }

/-- What happens next: the core issues a request, the interrupt is taken, the handler goes
on, the controller ends its command or raises data events, or the channel switches itself
off at the end of a transfer. -/
inductive MmciAct
  | request (cmd : MmcCommand) (data : Option MmcData) (stop : Option MmcCommand)
  | irq
  | run
  | cmdEvent (event : CmdEvent) (resp : Resp)
  | dataEvent (bits : DataBits)
  | dmaEnd
  deriving DecidableEq, Repr

/-- The lock is free. -/
def IrqPc.unlocked : IrqPc → Bool
  | .idle | .dataDone _ | .cmdDone _ => true
  | .sample | .data _ | .cmd _ => false

/-- One step. The core issues a request when the previous one has completed. A response
arrives with `respEnd` and `crcFail` only. -/
def mmciStep (s : Mmci) : MmciAct → Option Mmci
  | .request cmd data stop =>
    if s.mrq = none ∧ s.pc.unlocked then
      some (mmciRequest { s with issued := s.issued + 1 } ⟨s.issued, cmd, data, stop⟩)
    else none
  | .irq => if s.pc = .idle then some { s with pc := .sample } else none
  | .run => mmciIrqRun s
  | .cmdEvent event resp =>
    match s.active with
    | none => none
    | some c =>
      let resp := if event = .respEnd ∨ event = .crcFail then resp else s.resp
      some { s with
        active := none
        statusCmd := s.statusCmd.or event.bits
        resp := resp
        log := s.setLog c fun l => { l with event := some (event, resp) } }
  | .dataEvent bits => some { s with statusData := s.statusData.or bits }
  | .dmaEnd => some { s with dma := s.dma.clearEn dmachSdio }

/-- The host after probing: idle, with an acquired and disabled channel. -/
def Mmci.Probed (s : Mmci) : Prop :=
  s.mrq = none ∧ s.cmd = none ∧ s.data = none ∧ s.active = none ∧ s.statusCmd = .zero ∧
    (s.dma.dmaCh dmachSdio).inUse = true ∧ s.dmaEn = false ∧ s.dmaRv = 0 ∧ s.pc = .idle ∧
      s.bug = false ∧
    s.issued = 0 ∧ s.ended = [] ∧ (∀ k b, s.log k b = .empty) ∧ ∀ k, s.refused k = false

/-- All runs of the host. -/
def mmciSystem : System Mmci MmciAct where
  init := Mmci.Probed
  step := mmciStep

/-! ### What the operations can do -/

theorem Mmci.setLog_self (s : Mmci) (c : ReqCmd) (f : CmdLog → CmdLog) :
    s.setLog c f c.req.id c.stop = f (s.log c.req.id c.stop) :=
  if_pos ⟨rfl, rfl⟩

theorem Mmci.setLog_of_ne {s : Mmci} {c : ReqCmd} {f : CmdLog → CmdLog} {k : Nat} {b : Bool}
    (h : ¬ (k = c.req.id ∧ b = c.stop)) : s.setLog c f k b = s.log k b :=
  if_neg h

theorem ReqCmd.data_eq_some {c : ReqCmd} {d : MmcData} (h : c.data = some d) :
    c.stop = false ∧ c.req.data = some d := by
  unfold ReqCmd.data at h
  split at h
  · cases h
  · next hs => exact ⟨by simpa using hs, h⟩

/-- Starting the data phase of the current request. -/
theorem mmciStartData_eq {s : Mmci} {d : ReqData} (hm : s.mrq = some d.req)
    (hd : d.req.data = some d.data) :
    mmciStartData s d = { s with
      data := some d
      dataXfered := 0
      dma := (mmcDmaStart (if d.data.read then 0 else 1) d.data.addr s.dma).2
      dmaRv := (mmcDmaStart (if d.data.read then 0 else 1) d.data.addr s.dma).1 } := by
  simp only [mmciStartData, hm, Option.bind_some, hd]

/-- A request is refused, or sent with its read started before it. -/
theorem mmciRequest_cases (s : Mmci) (mrq : MmcRequest) :
    mmciRequest s mrq = { s with
        ended := (mrq.id, 0) :: s.ended
        refused := fun k => if k = mrq.id then true else s.refused k } ∨
      (∃ d, mrq.data = some d ∧ d.read = true ∧ mmciRequest s mrq =
        mmciStartCommand (mmciStartData { s with mrq := some mrq } ⟨mrq, d⟩)
          ⟨mrq, false, mrq.cmd⟩) ∨
      (∀ d, mrq.data = some d → d.read = false) ∧ mmciRequest s mrq =
        mmciStartCommand { s with mrq := some mrq } ⟨mrq, false, mrq.cmd⟩ := by
  unfold mmciRequest
  cases hd : mrq.data with
  | none => exact .inr (.inr ⟨fun d h => absurd h (by simp), rfl⟩)
  | some d =>
    dsimp only
    split
    · exact .inl rfl
    · cases hr : d.read with
      | true => exact .inr (.inl ⟨d, rfl, hr, rfl⟩)
      | false =>
        refine .inr (.inr ⟨fun e he => ?_, rfl⟩)
        cases he
        exact hr

/-- A command ends its request, lets its read go on, or starts its write. -/
theorem mmciCmdIrq_cases (s : Mmci) (c : ReqCmd) (st : Status) :
    ((c.data = none ∨ st.cmd.cmdError c.cmd ≠ 0) ∧ mmciCmdIrq s c st =
        { mmciRequestEnd (mmciStopData (cmdResult s c st)) c.req with pc := .cmdDone st }) ∨
      (∃ d, c.data = some d ∧ d.read = true ∧
        mmciCmdIrq s c st = { cmdResult s c st with pc := .sample }) ∨
      ∃ d, c.data = some d ∧ d.read = false ∧ mmciCmdIrq s c st =
        { mmciStartData (cmdResult s c st) ⟨c.req, d⟩ with pc := .sample } := by
  unfold mmciCmdIrq
  dsimp only
  split
  · next he => exact .inl ⟨.inr he, rfl⟩
  · cases hd : c.data with
    | none => exact .inl ⟨.inl rfl, rfl⟩
    | some d =>
      cases hr : d.read with
      | true =>
        refine .inr (.inl ⟨d, rfl, hr, ?_⟩)
        simp only [hr, ↓reduceIte]
      | false =>
        refine .inr (.inr ⟨d, rfl, hr, ?_⟩)
        simp only [hr, Bool.false_eq_true, ↓reduceIte]

/-- Command bits of the sampled status word that are still to be handled. -/
def IrqPc.pending : IrqPc → CmdBits
  | .data st | .dataDone st | .cmd st => st.cmd
  | .idle | .sample | .cmdDone _ => .zero

/-- What a step can do. Moves of the handler that change nothing else are one case: they keep
the command bits, or drop bits that say nothing or belong to no command. -/
inductive MmciCase (s : Mmci) : MmciAct → Mmci → Prop
  | request (cmd data stop) : s.mrq = none → MmciCase s (.request cmd data stop)
      (mmciRequest { s with issued := s.issued + 1 } ⟨s.issued, cmd, data, stop⟩)
  | move (a pc) : pc.pending = s.pc.pending ∨
      pc.pending = .zero ∧ (s.pc.pending.any = false ∨ s.cmd = none) →
      MmciCase s a { s with pc := pc }
  | sample : s.pc = .sample → MmciCase s .run { s with
      pc := .data ⟨s.statusCmd, s.statusData⟩, statusCmd := .zero, statusData := .zero }
  | dataIrq (d st) : s.pc = .data st → s.data = some d → st.data.any = true →
      MmciCase s .run (mmciDataIrq s d st)
  | cmdIrq (c st) : s.pc = .cmd st → s.cmd = some c → st.cmd.any = true →
      MmciCase s .run (mmciCmdIrq s c st)
  | cmdEvent (c event resp resp') : s.active = some c → MmciCase s (.cmdEvent event resp) { s with
      active := none
      statusCmd := s.statusCmd.or event.bits
      resp := resp'
      log := s.setLog c fun l => { l with event := some (event, resp') } }
  | dataEvent (bits) :
      MmciCase s (.dataEvent bits) { s with statusData := s.statusData.or bits }
  | dmaEnd : MmciCase s .dmaEnd { s with dma := s.dma.clearEn dmachSdio }

private theorem mmciIrqRun_cases {s s' : Mmci} (h : mmciIrqRun s = some s') :
    MmciCase s .run s' := by
  unfold mmciIrqRun at h
  split at h
  · cases h
  · next hpc =>
    cases h
    exact .sample hpc
  · next st hpc =>
    split at h
    · next d hd =>
      split at h
      · next hany =>
        cases h
        exact .dataIrq d st hpc hd hany
      · cases h
        exact .move _ _ (.inl (by rw [hpc]; rfl))
    · cases h
      exact .move _ _ (.inl (by rw [hpc]; rfl))
  · next hpc =>
    cases h
    exact .move _ _ (.inl (by rw [hpc]; rfl))
  · next st hpc =>
    split at h
    · next c hc =>
      split at h
      · next hany =>
        cases h
        exact .cmdIrq c st hpc hc hany
      · next hany =>
        cases h
        refine .move _ _ (.inr ⟨by split <;> rfl, .inl ?_⟩)
        rw [hpc]
        exact eq_false_of_ne_true hany
    · next hc =>
      cases h
      exact .move _ _ (.inr ⟨by split <;> rfl, .inr hc⟩)
  · next hpc =>
    cases h
    exact .move _ _ (.inl (by rw [hpc]; rfl))

/-- Every step is one of the cases. -/
theorem mmciStep_cases {s s' : Mmci} {a : MmciAct} (h : mmciStep s a = some s') :
    MmciCase s a s' := by
  cases a with
  | request cmd data stop =>
    simp only [mmciStep] at h
    split at h
    · next hm =>
      cases h
      exact .request cmd data stop hm.1
    · cases h
  | irq =>
    simp only [mmciStep] at h
    split at h
    · next hpc =>
      cases h
      exact .move _ _ (.inl (by rw [hpc]; rfl))
    · cases h
  | run => exact mmciIrqRun_cases h
  | cmdEvent event resp =>
    simp only [mmciStep] at h
    split at h
    · cases h
    · next c ha =>
      cases h
      exact .cmdEvent c event resp _ ha
  | dataEvent bits =>
    cases h
    exact .dataEvent bits
  | dmaEnd =>
    cases h
    exact .dmaEnd

end LinuxStm32.Drivers.Mmc
