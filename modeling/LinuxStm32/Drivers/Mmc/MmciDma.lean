import LinuxStm32.Drivers.Mmc.Mmci

/-!
# The DMA channel of the MMC host

`HostOk` ties the host's pointers together and holds in every run; it also excludes the
`BUG_ON`. The channel is enabled only during a data phase, with the request's own buffer,
provided that no failed command stops a data phase: that path of the source leaves the
channel enabled.
-/

namespace LinuxStm32.Drivers.Mmc

open Base Mach

namespace Mmci

/-- The current command and data belong to the current request, and a data phase runs beside
a command only when it is the read of that command. -/
structure HostOk (s : Mmci) : Prop where
  data : ∀ d, s.data = some d → s.mrq = some d.req ∧ d.req.data = some d.data
  cmd : ∀ c, s.cmd = some c → s.mrq = some c.req
  alone : ∀ c, s.cmd = some c → (∀ d, c.data = some d → d.read = false) → s.data = none
  bug : s.bug = false

/-- The channel is acquired, off outside a data phase, and was last programmed with the
buffer of the current one. -/
structure DmaOk (s : Mmci) : Prop where
  inUse : (s.dma.dmaCh dmachSdio).inUse = true
  off : s.data = none → s.dmaEn = false
  own : ∀ d, s.data = some d → (s.dma.regs dmachSdio).m0ar = d.data.addr
  rv : s.dmaRv = 0

end Mmci

/-- A command that failed is handled only when no data phase is running. -/
def CmdErrorOk (s : Mmci) : MmciAct → Prop
  | .run => ∀ st c, s.pc = .cmd st → s.cmd = some c → st.cmd.any = true →
      st.cmd.cmdError c.cmd ≠ 0 → s.data = none
  | _ => True

/-- Starting an acquired channel that is off programs the buffer and enables it. -/
theorem mmcDmaStart_of_idle {d : Dmac} (h : d.Idle dmachSdio) {dir : BitVec 8} (hd : dir ≤ 2)
    (addr : BitVec 32) :
    (mmcDmaStart dir addr d).1 = 0 ∧
      ((mmcDmaStart dir addr d).2.dmaCh dmachSdio).inUse = true ∧
      ((mmcDmaStart dir addr d).2.regs dmachSdio).m0ar = addr := by
  have hn : dmachSdio < 16 := by decide
  obtain ⟨d₁, h₁, i₁, -⟩ : ∃ d', d.chInit dmachSdio dir 1 3 0 0 = (0, d') ∧ _ :=
    h.configure hn (by simpa using hd) fun _ => Dmac.initRegs_en _ _ _ _ _
  obtain ⟨d₂, h₂, i₂, -⟩ : ∃ d', d₁.chInitFifo dmachSdio 1 3 = (0, d') ∧ _ :=
    i₁.configure hn rfl fun _ => id
  obtain ⟨d₃, h₃, i₃, -⟩ :
      ∃ d', d₂.chSetPeriph dmachSdio (0x40012C00 + 0x80) 0 2 1 = (0, d') ∧ _ :=
    i₂.configure hn rfl fun _ hr => Dmac.fields_en hr (by decide)
  obtain ⟨d₄, h₄, i₄, hr₄⟩ : ∃ d', d₃.chSetMemory dmachSdio addr 1 2 1 = (0, d') ∧ _ :=
    i₃.configure hn rfl fun _ hr => Dmac.fields_en hr (by decide)
  obtain ⟨d₅, h₅, i₅, hr₅⟩ : ∃ d', d₄.chSetNitems dmachSdio 0 = (0, d') ∧ _ :=
    i₄.configure hn rfl fun _ => id
  have hrun : mmcDmaStart dir addr d = d₅.chEnable dmachSdio true := by
    simp only [mmcDmaStart, h₁, h₂, h₃, h₄, h₅, Int.lt_irrefl, if_false]
  rw [hrun, Dmac.chEnable, Dmac.locked_of_inUse hn i₅.inUse, if_pos rfl]
  refine ⟨rfl, i₅.inUse, ?_⟩
  rw [Dmac.regs_setRegs_self]
  change (d₅.regs dmachSdio).m0ar = addr
  rw [hr₅, hr₄]

namespace Mmci

variable {s : Mmci}

private theorem dmaEn_clearEn : dmaEn { s with dma := s.dma.clearEn dmachSdio } = false := by
  simp [dmaEn, Dmac.clearEn, Dmac.regs_setRegs_self, BitVec.and_assoc, crEn]

private theorem DmaOk.startData (hk : s.DmaOk) (hn : s.data = none) {d : ReqData}
    (hm : s.mrq = some d.req) (hd : d.req.data = some d.data) : (mmciStartData s d).DmaOk := by
  have hdir : (if d.data.read then 0 else 1 : BitVec 8) ≤ 2 := by split <;> decide
  obtain ⟨hrv, hu, haddr⟩ :=
    mmcDmaStart_of_idle ⟨hk.inUse, by simpa [dmaEn] using hk.off hn⟩ hdir d.data.addr
  rw [mmciStartData_eq hm hd]
  refine ⟨hu, fun h => ?_, fun e he => ?_, hrv⟩
  · cases h
  · cases he
    exact haddr

/-! ### Requests -/

/-- An idle host has neither a command nor a data phase. -/
theorem HostOk.idle (hi : s.HostOk) (hm : s.mrq = none) : s.cmd = none ∧ s.data = none := by
  constructor
  · cases hc : s.cmd with
    | none => rfl
    | some c =>
      have := hi.cmd c hc
      rw [hm] at this
      cases this
  · cases hd : s.data with
    | none => rfl
    | some d =>
      have := (hi.data d hd).1
      rw [hm] at this
      cases this

private theorem HostOk.request (hi : s.HostOk) (hm : s.mrq = none) (mrq : MmcRequest) :
    (mmciRequest s mrq).HostOk := by
  obtain ⟨hc, hd⟩ := hi.idle hm
  rcases mmciRequest_cases s mrq with he | ⟨d, hdata, hr, he⟩ | ⟨hw, he⟩
  · rw [he]
    exact ⟨hi.data, hi.cmd, hi.alone, hi.bug⟩
  · rw [he, mmciStartData_eq rfl hdata]
    refine ⟨fun e he => ?_, fun c he => ?_, fun c he hw => ?_, hi.bug⟩
    · cases he
      exact ⟨rfl, hdata⟩
    · cases he
      rfl
    · cases he
      have := hw d hdata
      rw [hr] at this
      cases this
  · rw [he]
    refine ⟨fun e he => ?_, fun c he => ?_, fun c _ _ => hd, hi.bug⟩
    · exact absurd (hd.symm.trans he) (by simp)
    · cases he
      rfl

private theorem DmaOk.request (hi : s.HostOk) (hk : s.DmaOk) (hm : s.mrq = none)
    (mrq : MmcRequest) : (mmciRequest s mrq).DmaOk := by
  obtain ⟨-, hd⟩ := hi.idle hm
  rcases mmciRequest_cases s mrq with he | ⟨d, hdata, -, he⟩ | ⟨-, he⟩
  · rw [he]
    exact ⟨hk.inUse, hk.off, hk.own, hk.rv⟩
  · have hk' : DmaOk { s with mrq := some mrq } := ⟨hk.inUse, hk.off, hk.own, hk.rv⟩
    have hst : DmaOk (mmciStartData { s with mrq := some mrq } ⟨mrq, d⟩) :=
      hk'.startData hd rfl hdata
    rw [he]
    exact ⟨hst.inUse, hst.off, hst.own, hst.rv⟩
  · rw [he]
    exact ⟨hk.inUse, hk.off, hk.own, hk.rv⟩

/-! ### Interrupts -/

private theorem HostOk.dataIrq (hi : s.HostOk) {d : ReqData} (hd : s.data = some d) (st : Status) :
    (mmciDataIrq s d st).HostOk := by
  unfold mmciDataIrq
  dsimp only
  split
  · refine ⟨fun e he => ?_, fun c he => ?_, fun c he => ?_, ?_⟩
    · cases he
    · cases he
    · cases he
    · simp only [mmciRequestEnd, mmciStopData, Option.isSome_none, Bool.or_false]
      exact hi.bug
  · refine ⟨fun e he => ?_, fun c he => ?_, fun c he _ => rfl, hi.bug⟩
    · cases he
    · cases he
      exact (hi.data d hd).1

private theorem DmaOk.dataIrq (hk : s.DmaOk) (d : ReqData) (st : Status) :
    (mmciDataIrq s d st).DmaOk := by
  have hoff : s.dma.chEnable dmachSdio false = (0, s.dma.clearEn dmachSdio) := by
    rw [Dmac.chEnable, Dmac.locked_of_inUse (by decide) hk.inUse]
    rfl
  unfold mmciDataIrq
  rw [hoff]
  dsimp only
  split
  · refine ⟨hk.inUse, fun _ => dmaEn_clearEn, fun e he => ?_, hk.rv⟩
    cases he
  · refine ⟨hk.inUse, fun _ => dmaEn_clearEn, fun e he => ?_, hk.rv⟩
    cases he

private theorem HostOk.cmdIrq (hi : s.HostOk) {c : ReqCmd} (hc : s.cmd = some c) (st : Status) :
    (mmciCmdIrq s c st).HostOk := by
  rcases mmciCmdIrq_cases s c st with ⟨-, he⟩ | ⟨d, -, -, he⟩ | ⟨d, hd, -, he⟩
  · rw [he]
    refine ⟨fun e he => ?_, fun c he => ?_, fun c he => ?_, ?_⟩
    · cases he
    · cases he
    · cases he
    · simp only [mmciRequestEnd, mmciStopData, Option.isSome_none, Bool.or_false]
      exact hi.bug
  · rw [he]
    refine ⟨hi.data, fun c he => ?_, fun c he => ?_, hi.bug⟩
    · cases he
    · cases he
  · have hm : (cmdResult s c st).mrq = some c.req := hi.cmd c hc
    have hreq := (ReqCmd.data_eq_some hd).2
    rw [he, mmciStartData_eq hm hreq]
    refine ⟨fun e he => ?_, fun c he => ?_, fun c he => ?_, hi.bug⟩
    · cases he
      exact ⟨hm, hreq⟩
    · cases he
    · cases he

private theorem DmaOk.cmdIrq (hi : s.HostOk) (hk : s.DmaOk) {c : ReqCmd} (hc : s.cmd = some c)
    (st : Status) (ok : st.cmd.cmdError c.cmd ≠ 0 → s.data = none) :
    (mmciCmdIrq s c st).DmaOk := by
  rcases mmciCmdIrq_cases s c st with ⟨hend, he⟩ | ⟨d, -, -, he⟩ | ⟨d, hd, hw, he⟩
  · have hn : s.data = none := by
      rcases hend with hnone | herr
      · refine hi.alone c hc fun d hd => ?_
        rw [hnone] at hd
        cases hd
      · exact ok herr
    rw [he]
    refine ⟨hk.inUse, fun _ => hk.off hn, fun e he => ?_, hk.rv⟩
    cases he
  · rw [he]
    exact ⟨hk.inUse, hk.off, hk.own, hk.rv⟩
  · have hn : s.data = none := by
      refine hi.alone c hc fun e he => ?_
      cases hd.symm.trans he
      exact hw
    have hm : (cmdResult s c st).mrq = some c.req := hi.cmd c hc
    have hk' : (cmdResult s c st).DmaOk := ⟨hk.inUse, hk.off, hk.own, hk.rv⟩
    have hst : (mmciStartData (cmdResult s c st) ⟨c.req, d⟩).DmaOk :=
      hk'.startData hn hm (ReqCmd.data_eq_some hd).2
    rw [he]
    exact ⟨hst.inUse, hst.off, hst.own, hst.rv⟩

/-- The probed host. -/
theorem Probed.hostOk (h : s.Probed) : s.HostOk ∧ s.DmaOk := by
  obtain ⟨hm, hc, hd, -, -, hu, he, hrv, -, hb, -⟩ := h
  refine ⟨⟨fun d h => ?_, fun c h => ?_, fun c h _ => hd, hb⟩,
    ⟨hu, fun _ => he, fun d h => ?_, hrv⟩⟩
  · exact absurd (hd.symm.trans h) (by simp)
  · exact absurd (hc.symm.trans h) (by simp)
  · exact absurd (hd.symm.trans h) (by simp)

theorem HostOk.issue (hi : s.HostOk) : HostOk { s with issued := s.issued + 1 } :=
  ⟨hi.data, hi.cmd, hi.alone, hi.bug⟩

/-- Every step keeps the host's pointers together. -/
theorem HostOk.step (hi : s.HostOk) {s' : Mmci} {a : MmciAct} (h : mmciStep s a = some s') :
    s'.HostOk := by
  cases mmciStep_cases h with
  | request cmd data stop hm =>
    exact hi.issue.request hm _
  | dataIrq d st _ hd => exact hi.dataIrq hd st
  | cmdIrq c st _ hc => exact hi.cmdIrq hc st
  | move | sample | cmdEvent | dataEvent | dmaEnd =>
    exact ⟨hi.data, hi.cmd, hi.alone, hi.bug⟩

/-- Every guarded step keeps the channel as it should be. -/
theorem DmaOk.step (hi : s.HostOk) (hk : s.DmaOk) {s' : Mmci} {a : MmciAct}
    (ok : CmdErrorOk s a) (h : mmciStep s a = some s') : s'.DmaOk := by
  cases mmciStep_cases h with
  | request cmd data stop hm =>
    have hk' : DmaOk { s with issued := s.issued + 1 } := ⟨hk.inUse, hk.off, hk.own, hk.rv⟩
    exact hk'.request hi.issue hm _
  | dataIrq d st => exact hk.dataIrq d st
  | cmdIrq c st hpc hc hany => exact hk.cmdIrq hi hc st (ok st c hpc hc hany)
  | move | sample | cmdEvent | dataEvent => exact ⟨hk.inUse, hk.off, hk.own, hk.rv⟩
  | dmaEnd => exact ⟨hk.inUse, fun _ => dmaEn_clearEn, hk.own, hk.rv⟩

end Mmci

/-- In every run in which no failed command stops a data phase, the channel is off outside
data phases, every data phase runs on its own buffer, and no start of the channel failed. -/
theorem mmci_dma_stopped {s : Mmci} (h : mmciSystem.Reach CmdErrorOk s) :
    (s.data = none → s.dmaEn = false) ∧
      (∀ d, s.data = some d → (s.dma.regs dmachSdio).m0ar = d.data.addr) ∧ s.dmaRv = 0 := by
  have hk : s.HostOk ∧ s.DmaOk := by
    refine @System.Reach.invariant _ _ _ _ (fun s => s.HostOk ∧ s.DmaOk) ?_ ?_ s h
    · exact fun _ hp => Mmci.Probed.hostOk hp
    · exact fun _ _ _ hk ok he => ⟨hk.1.step he, hk.2.step hk.1 ok he⟩
  exact ⟨hk.2.off, hk.2.own, hk.2.rv⟩

/-- A host after probing. -/
def freshMmci : Mmci where
  mrq := none
  cmd := none
  data := none
  dataXfered := 0
  active := none
  statusCmd := .zero
  statusData := .zero
  resp := ⟨0, 0, 0, 0⟩
  dma := ⟨fun _ => ⟨true, none, 0, noHandler_noData⟩, fun _ _ => ⟨0, 0, 0, 0, 0, 0⟩,
    fun _ _ => 0, []⟩
  dmaRv := 0
  pc := .idle
  bug := false
  issued := 0
  ended := []
  dataError := fun _ => 0
  log := fun _ _ => .empty
  refused := fun _ => false

theorem reach_freshMmci (ok : Mmci → MmciAct → Prop) : mmciSystem.Reach ok freshMmci :=
  .init ⟨rfl, rfl, rfl, rfl, rfl, rfl, rfl, rfl, rfl, rfl, rfl, rfl, fun _ _ => rfl, fun _ => rfl⟩

/-- `READ_SINGLE_BLOCK`. -/
def readBlock : MmcCommand := ⟨17, 0, true, false, true⟩

/-- One block of 512 bytes to bus address `addr`. -/
def blockAt (addr : BitVec 32) : MmcData := ⟨true, 512, 1, addr⟩

/-- A read that is answered and then transferred leaves the channel off. -/
theorem mmci_dma_stopped_read :
    ∃ s : Mmci, (s.data = none → s.dmaEn = false) ∧
      (∀ d, s.data = some d → (s.dma.regs dmachSdio).m0ar = d.data.addr) ∧ s.dmaRv = 0 ∧
      s.ended = [(0, 512)] := by
  have sampled := System.reach_of_exec [.request readBlock (some (blockAt 0xC0100000)) none,
    .cmdEvent .respEnd ⟨0x900, 0, 0, 0⟩, .irq] (reach_freshMmci CmdErrorOk)
    (by simp [CmdErrorOk]) rfl
  have handled : mmciSystem.Reach CmdErrorOk _ :=
    (sampled.step (a := .run) (by rintro st c ⟨⟩) rfl).step (a := .run) (by rintro st c ⟨⟩) rfl
  have answered : mmciSystem.Reach CmdErrorOk _ :=
    handled.step (a := .run) (by rintro st c ⟨⟩ ⟨⟩ - herr; exact absurd rfl herr) rfl
  have transferred := System.reach_of_exec
    [.dataEvent ⟨false, false, false, false, false, true⟩] answered (by simp [CmdErrorOk]) rfl
  have ended : mmciSystem.Reach CmdErrorOk _ :=
    (transferred.step (a := .run) (by rintro st c ⟨⟩) rfl).step (a := .run)
      (by rintro st c ⟨⟩) rfl
  have h := mmci_dma_stopped ended
  exact ⟨_, h.1, h.2.1, h.2.2, rfl⟩

/-- A read whose command times out leaves the channel enabled without a data phase, and the
next read is refused with `-EBUSY` and would run on the first one's buffer. -/
theorem mmci_dma_left_enabled :
    (∃ s, mmciSystem.Reach System.Always s ∧ s.data = none ∧ s.dmaEn = true) ∧
      ∃ s d, mmciSystem.Reach System.Always s ∧ s.data = some d ∧ d.data.addr = 0xC0200000 ∧
        (s.dma.regs dmachSdio).m0ar = 0xC0100000 ∧ s.dmaRv = -16 := by
  constructor
  · obtain ⟨s, he⟩ : ∃ s, mmciSystem.exec freshMmci
        [.request readBlock (some (blockAt 0xC0100000)) none, .cmdEvent .timeout ⟨0, 0, 0, 0⟩,
          .irq, .run, .run, .run] = some s := ⟨_, rfl⟩
    refine ⟨s, System.reach_of_exec _ (reach_freshMmci _) (fun _ _ _ => trivial) he, ?_⟩
    cases he
    exact ⟨rfl, rfl⟩
  · obtain ⟨s, he⟩ : ∃ s, mmciSystem.exec freshMmci
        [.request readBlock (some (blockAt 0xC0100000)) none, .cmdEvent .timeout ⟨0, 0, 0, 0⟩,
          .irq, .run, .run, .run, .request readBlock (some (blockAt 0xC0200000)) none] =
          some s := ⟨_, rfl⟩
    refine ⟨s, ⟨⟨1, readBlock, some (blockAt 0xC0200000), none⟩, blockAt 0xC0200000⟩,
      System.reach_of_exec _ (reach_freshMmci _) (fun _ _ _ => trivial) he, ?_⟩
    cases he
    exact ⟨rfl, rfl, rfl, rfl⟩

end LinuxStm32.Drivers.Mmc
