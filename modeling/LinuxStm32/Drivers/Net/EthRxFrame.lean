import LinuxStm32.Drivers.Net.EthRx

/-!
# What the receive side passes to the stack

`drivers/net/arm/stm32_eth.c:594–648, 786–871`. A descriptor's buffer has room for
`frame_max_size + 4` bytes. `stm32_eth_rx_get` looks at `FS` and `LS` only in frames with errors and
takes 4 from the length that the MAC reports, as a word. The size in the descriptor, by which the
DMA splits frames, is not modelled: a descriptor with `FS` and `LS` is taken to hold all of a frame.
-/

namespace LinuxStm32.Drivers.Net

open Base

/-- `STM32_DMA_RBD_ES` of a status word. -/
def rbdEs (stat : BitVec 32) : Bool := stat.getLsbD 15

/-- `STM32_DMA_RBD_FS` and `STM32_DMA_RBD_LS`: the descriptor holds a frame from start to end. -/
def rbdWhole (stat : BitVec 32) : Bool := stat.getLsbD 9 && stat.getLsbD 8

/-- The field `STM32_DMA_RBD_FL`, the length of a frame with its CRC. -/
def rbdFl (stat : BitVec 32) : Nat := ((stat >>> 16) &&& 0x3FFF#32).toNat

theorem rbdFl_lt (stat : BitVec 32) : rbdFl stat < 16384 := by
  rw [rbdFl, BitVec.toNat_and]
  exact Nat.and_lt_two_pow _ (by decide : (0x3FFF#32).toNat < 2 ^ 14)

/-- The length without the CRC wraps for a frame that is shorter than that. -/
theorem rxLen_eq (stat : BitVec 32) : rxLen stat = wsub (rbdFl stat) 4 := rfl

theorem rxLen_add (stat : BitVec 32) : rxLen stat + 4 = rbdFl stat ↔ 4 ≤ rbdFl stat := by
  have hlt := rbdFl_lt stat
  rw [rxLen_eq]
  unfold wsub
  omega

namespace EthRx

variable (s : EthRx)

/-- The descriptor that is served. -/
def served : RxSlot := s.slot s.rxDoneIdx

/-- One whole frame without its CRC is passed on, copied from inside the buffer. -/
structure RxPassed (frameMaxSize : Nat) (skb : Bool) : Prop where
  received : (s.rxFrame skb).received = s.received ++ [s.served.data.take (rbdFl s.served.stat - 4)]
  inside : rxLen s.served.stat ≤ frameMaxSize + 4
  whole : rbdWhole s.served.stat = true

/-- Nothing is passed on, and the loss is counted. -/
structure RxDropped (skb : Bool) : Prop where
  received : (s.rxFrame skb).received = s.received
  counted : (s.rxFrame skb).stats.rxErrors = wadd s.stats.rxErrors 1 ∨
    (s.rxFrame skb).stats.rxDropped = wadd s.stats.rxDropped 1

/-- The descriptor is served, whether or not there is memory for the frame: passed on or dropped,
and the CRC is taken off a length that has room for it. -/
structure RxServed (frameMaxSize : Nat) : Prop where
  outcome : ∀ skb, s.RxPassed frameMaxSize skb ∨ s.RxDropped skb
  crc : rbdEs s.served.stat = false → rxLen s.served.stat + 4 = rbdFl s.served.stat

end EthRx

/-- A status word that is served well: an error, or a whole frame of a length that fits. -/
def RxStatOk (frameMaxSize : Nat) (stat : BitVec 32) : Prop :=
  rbdEs stat = true ∨ rbdWhole stat = true ∧ 4 ≤ rbdFl stat ∧ rbdFl stat ≤ frameMaxSize + 8

section

variable {s : EthRx} {frameMaxSize : Nat}

theorem rxFrame_of_es (h : rbdEs s.served.stat = true) (skb : Bool) : s.RxDropped skb := by
  have hframe : s.rxFrame skb = { s with stats := s.stats.error s.served.stat } := if_pos h
  constructor
  · rw [hframe]
  · left
    rw [hframe]
    rfl

theorem rxFrame_no_skb (h : rbdEs s.served.stat = false) : s.RxDropped false := by
  have hframe : s.rxFrame false =
      { s with stats := { s.stats with rxDropped := wadd s.stats.rxDropped 1 } } :=
    if_neg (by rw [← rbdEs, ← EthRx.served, h]; decide)
  constructor
  · rw [hframe]
  · right
    rw [hframe]

theorem rxFrame_received (h : rbdEs s.served.stat = false) :
    (s.rxFrame true).received = s.received ++ [s.served.data.take (rxLen s.served.stat)] := by
  have hes : ¬ (s.slot s.rxDoneIdx).stat.getLsbD 15 = true := by
    rw [← rbdEs, ← EthRx.served, h]
    decide
  rw [EthRx.rxFrame, if_neg hes, if_pos rfl, EthRx.served]

theorem rxServed_iff (s : EthRx) (frameMaxSize : Nat) :
    s.RxServed frameMaxSize ↔ RxStatOk frameMaxSize s.served.stat := by
  have hlt := rbdFl_lt s.served.stat
  constructor
  · intro h
    cases hes : rbdEs s.served.stat with
    | true => exact .inl hes
    | false =>
      right
      have hcrc := h.crc hes
      have hfour := (rxLen_add _).mp hcrc
      rcases h.outcome true with hpassed | hdropped
      · have hinside := hpassed.inside
        exact ⟨hpassed.whole, hfour, by omega⟩
      · -- with memory for it the frame is passed on
        have hreceived := hdropped.received
        rw [rxFrame_received hes] at hreceived
        exact absurd (List.append_right_eq_self.mp hreceived) (List.cons_ne_nil _ _)
  · rintro (hes | ⟨hwhole, hfour, hfit⟩)
    · refine ⟨fun skb => .inr (rxFrame_of_es hes skb), fun hno => ?_⟩
      rw [hes] at hno
      cases hno
    · have hcrc := (rxLen_add _).mpr hfour
      refine ⟨fun skb => ?_, fun _ => hcrc⟩
      cases hes : rbdEs s.served.stat with
      | true => exact .inr (rxFrame_of_es hes skb)
      | false =>
        cases skb with
        | false => exact .inr (rxFrame_no_skb hes)
        | true =>
          left
          refine ⟨?_, by omega, hwhole⟩
          rw [rxFrame_received hes, ← hcrc, Nat.add_sub_cancel]

/-! ### Runs -/

/-- The descriptors that the driver may look at are served well, and it serves no other. -/
structure RxReady (frameMaxSize : Nat) (s : EthRx) : Prop where
  slots : ∀ i, rbdOwn (s.slot i).stat = false → RxStatOk frameMaxSize (s.slot i).stat
  frame : ∀ p, s.poll = some p → p.pc = .frame → rbdOwn s.served.stat = false

/-- A step that gives no descriptor to the driver, and after which the poll is not about to serve
one unless it was before. -/
theorem RxReady.keep {s' : EthRx} (h : RxReady frameMaxSize s)
    (hslot : ∀ i, s'.slot i = s.slot i ∨ rbdOwn (s'.slot i).stat = true)
    (hpoll : s'.poll = s.poll ∧ s'.served = s.served ∨ ∀ p, s'.poll = some p → p.pc ≠ .frame) :
    RxReady frameMaxSize s' := by
  constructor
  · intro i hi
    rcases hslot i with hsame | hown
    · rw [hsame] at hi ⊢
      exact h.slots i hi
    · rw [hown] at hi
      cases hi
  · intro p hp hpc
    rcases hpoll with ⟨hsame, hserved⟩ | hother
    · rw [hserved]
      exact h.frame p (hsame ▸ hp) hpc
    · exact absurd hpc (hother p hp)

/-- The DMA completes descriptors with status words that are served well. -/
def DmaOk (frameMaxSize : Nat) (_ : EthRx) (a : RxAct) : Prop :=
  ∀ t, a = .dma t → RxStatOk frameMaxSize t.stat

theorem RxReady.step {n : Nat} {s' : EthRx} {a : RxAct} (h : RxReady frameMaxSize s)
    (hok : DmaOk frameMaxSize s a) (hc : RxCase n s a s') : RxReady frameMaxSize s' := by
  cases hc with
  | start => exact h.keep (fun _ => .inl rfl) (.inr fun q hq => by cases hq; nofun)
  | poll skb p pc s' hp hi hpc hc =>
    cases hc with
    | take hlt hd => exact ⟨h.slots, fun _ _ _ => hd⟩
    | giveBack t ht =>
      refine h.keep (fun i => ?_) (.inr fun q hq => by cases hq; nofun)
      by_cases hi : i = s.rxDoneIdx
      · dsimp only
        rw [hi, Function.update_self]
        exact .inr ht
      · exact .inl (Function.update_of_ne hi _ _)
    | full | exit => exact h.keep (fun _ => .inl rfl) (.inr nofun)
    | _ => exact h.keep (fun _ => .inl rfl) (.inr fun q hq => by cases hq; nofun)
  | dma t hown ht =>
    constructor
    · intro i hi
      dsimp only at hi ⊢
      by_cases hidx : i = s.dmaIdx
      · rw [hidx, Function.update_self]
        exact hok t rfl
      · rw [Function.update_of_ne hidx] at hi ⊢
        exact h.slots i hi
    · -- the DMA does not own the descriptor that is served
      intro p hp hpc
      have hserved := h.frame p hp hpc
      have hne : s.rxDoneIdx ≠ s.dmaIdx := by
        intro heq
        rw [EthRx.served, heq, hown] at hserved
        cases hserved
      rw [EthRx.served]
      dsimp only
      rw [Function.update_of_ne hne]
      exact hserved
  | _ => exact h.keep (fun _ => .inl rfl) (.inl ⟨rfl, rfl⟩)

theorem reach_rxReady {rxBufNum : Nat}
    (hs : (ethRxSystem rxBufNum).Reach (DmaOk frameMaxSize) s) : RxReady frameMaxSize s := by
  apply System.Reach.invariant _ _ hs
  · intro s hinit
    obtain ⟨hown, -, -, -, -, -, hpoll, -⟩ := hinit
    constructor
    · intro i hi
      rw [hown i] at hi
      cases hi
    · intro p hp
      rw [hpoll] at hp
      cases hp
  · exact fun s a s' h hok hstep => h.step hok (EthRx.step_case hstep)

end

/-- A descriptor is served well exactly when its status word reports an error, or a whole frame
that has room for its CRC and fits in the buffer without it. If the DMA writes no other words, every
descriptor that is served in a run is served well. -/
theorem rx_frames_whole (frameMaxSize : Nat) :
    (∀ s : EthRx, s.RxServed frameMaxSize ↔ RxStatOk frameMaxSize s.served.stat) ∧
      ∀ rxBufNum s, (ethRxSystem rxBufNum).Reach (DmaOk frameMaxSize) s →
        ∀ p, s.poll = some p → p.pc = .frame → s.RxServed frameMaxSize := by
  refine ⟨fun s => rxServed_iff s frameMaxSize, fun rxBufNum s hs p hp hpc => ?_⟩
  have hready := reach_rxReady hs
  exact (rxServed_iff s frameMaxSize).mpr (hready.slots _ (hready.frame p hp hpc))

/-- The ring with the first part of a frame that is split over two descriptors: `FS` without `LS`,
no error, and no length yet. -/
def splitFrame : EthRx where
  slot _ := ⟨0x200#32, List.replicate 1526 0⟩
  rxDoneIdx := 0
  dmaIdx := 1
  dmasr := 0
  rie := false
  opened := true
  sched := true
  stats := ⟨0, 0, 0, 0, 0, 0, 0, 0, 0⟩
  received := []
  poll := some ⟨.frame, 0, 64, false⟩
  irq := none
  completed := []
  consumed := []

/-- The part is passed on as if it were a frame of `2 ^ 32 - 4` bytes. -/
theorem rx_served_split : ¬ splitFrame.RxServed 1522 := by
  intro h
  have hcrc := h.crc (by decide)
  exact absurd hcrc (by decide)

/-- A whole frame of 64 bytes is served well. -/
theorem rx_frames_whole_64 :
    ({ splitFrame with slot := fun _ => ⟨0x00400300#32, List.replicate 1526 0⟩ } :
      EthRx).RxServed 1522 :=
  ((rx_frames_whole 1522).1 _).mpr (.inr (by decide))

end LinuxStm32.Drivers.Net
