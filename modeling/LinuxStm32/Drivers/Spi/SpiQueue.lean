import LinuxStm32.Base.System
import LinuxStm32.Drivers.Spi.SpiXfer

/-!
# The message queue of the SPI driver

`spi_stm32_transfer`, `spi_stm32_handle`, `spi_stm32_handle_message`, `spi_stm32_pio_interrupted`
and `spi_stm32_irq`, `drivers/spi/spi_stm32.c:873–1087`, on one CPU. A frame that was sent comes
back after any time and then raises the interrupt; where the cursors stand in a message is left out
here. Messages are numbered as they are queued, and a message that is queued again counts as a new
one. `touched` records that the interrupt handler accessed a message after its completion,
`miscounted` that it counted a frame of one message for another.
-/

namespace LinuxStm32.Drivers.Spi

open Base

/-- Where `spi_stm32_handle` is. -/
inductive SpiStage
  /-- Between two messages. -/
  | idle
  /-- The message is taken from the queue. -/
  | taken (m : Nat)
  /-- After `spi_stm32_xfer_init`. -/
  | started (m : Nat)
  /-- In the wait for the end of the transfer. -/
  | waiting (m : Nat)
  /-- Before `complete`. -/
  | finished (m : Nat)
  deriving DecidableEq, Repr

/-- The driver and the frames on the way. `cursor` is the message whose transfers the cursors point
to; `wire` has for each frame, sent and not yet read, the message it belongs to. -/
structure SpiQueue where
  queue : List Nat
  next : Nat
  stage : SpiStage
  cursor : Option Nat
  len : Int
  ti : Nat
  ri : Nat
  xferStatus : Int
  wire : List Nat
  completed : Nat → Bool
  touched : Bool
  miscounted : Bool

inductive SpiQueueLabel
  /-- `spi_stm32_transfer`. -/
  | transfer
  /-- The next message is taken from the queue. -/
  | take
  /-- `spi_stm32_prepare_for_slave` fails. -/
  | prepareFails
  /-- `spi_stm32_xfer_init`. -/
  | xferInit
  /-- The first frame is sent. -/
  | send
  /-- A frame comes back; at the end of a transfer further ones that came back are purged. -/
  | irq (purged : Nat)
  /-- The wait ends because the transfer did. -/
  | wake
  /-- The wait ends although the transfer did not. -/
  | timeout
  /-- `msg->complete`. -/
  | complete
  deriving DecidableEq, Repr

namespace SpiQueue

/-- The handler accesses the message of the cursors. -/
def touch (s : SpiQueue) (m : Nat) : SpiQueue := { s with touched := s.touched || s.completed m }

/-- `spi_stm32_xfer_tx_next` for the message of the cursors. -/
def txNext (s : SpiQueue) (m : Nat) : SpiQueue :=
  { s with
    ti := s.ti + 1
    wire := s.wire ++ [m] }

/-- The part of `spi_stm32_irq` that reads a frame of message `f`. -/
def irqRx (s : SpiQueue) (m f purged : Nat) : SpiQueue :=
  let s := { s.touch m with ri := s.ri + 1, miscounted := s.miscounted || f != m }
  if (s.ri : Int) = s.len then { s with wire := s.wire.drop purged, xferStatus := 0 } else s

/-- The part of `spi_stm32_irq` that pushes a frame out. -/
def irqTx (s : SpiQueue) (m : Nat) : SpiQueue :=
  if (s.ti : Int) < s.len then (s.touch m).txNext m else s

end SpiQueue

section Runs

variable (msgs : Nat → List SpiTransfer × Nat)

/-- One step. The transfers and the frame size of message `m` are `msgs m`. -/
def spiQueueStep (s : SpiQueue) : SpiQueueLabel → Option SpiQueue
  | .transfer => some { s with queue := s.queue ++ [s.next], next := s.next + 1 }
  | .take =>
    match s.stage, s.queue with
    | .idle, m :: queue =>
      if s.xferStatus = 0 then some { s with stage := .taken m, queue := queue } else none
    | _, _ => none
  | .prepareFails =>
    match s.stage with
    | .taken m => some { s with stage := .finished m }
    | _ => none
  | .xferInit =>
    match s.stage with
    | .taken m => some { s with
        stage := .started m
        cursor := some m
        len := (SpiXfer.init (msgs m).1 (msgs m).2).len
        ti := 0
        ri := 0 }
    | _ => none
  | .send =>
    match s.stage with
    | .started m => some { s.txNext m with stage := .waiting m, xferStatus := -16 }
    | _ => none
  | .irq purged =>
    match s.wire, s.cursor with
    | f :: wire, some m => some (({ s with wire := wire }.irqRx m f purged).irqTx m)
    | _, _ => none
  | .wake =>
    match s.stage with
    | .waiting m =>
      if s.xferStatus ≠ -16 then some { s with stage := .finished m, xferStatus := 0 } else none
    | _ => none
  | .timeout =>
    match s.stage with
    | .waiting m =>
      if s.xferStatus = -16 then some { s with stage := .finished m, xferStatus := 0 } else none
    | _ => none
  | .complete =>
    match s.stage with
    | .finished m => some { s with
        stage := .idle
        completed := fun k => s.completed k || k == m }
    | _ => none

/-- Nothing is queued or sent. -/
def SpiQueue.start : SpiQueue where
  queue := []
  next := 0
  stage := .idle
  cursor := none
  len := 0
  ti := 0
  ri := 0
  xferStatus := 0
  wire := []
  completed _ := false
  touched := false
  miscounted := false

/-- All interleavings from the given state on. -/
def spiQueueFrom (s₀ : SpiQueue) : System SpiQueue SpiQueueLabel where
  init s := s = s₀
  step := spiQueueStep msgs

end Runs

/-- No finished message was accessed and no frame was counted for another message. -/
def Untouched (s : SpiQueue) : Prop := s.touched = false ∧ s.miscounted = false

/-- No message times out with a frame on the way. -/
def TimeoutOk (s : SpiQueue) : SpiQueueLabel → Prop
  | .timeout => s.wire = []
  | _ => True

/-! ### Runs without such timeouts -/

/-- What is on the way at each stage. -/
def StageInv (s : SpiQueue) : Prop :=
  match s.stage with
  | .waiting m => s.cursor = some m ∧ s.ti = s.ri + s.wire.length ∧
      (s.wire = [] ∨ s.wire = [m] ∧ s.xferStatus = -16)
  | .started m => s.cursor = some m ∧ s.wire = [] ∧ s.ti = 0 ∧ s.ri = 0
  | _ => s.wire = []

/-- The message that is being handled. -/
def SpiStage.message : SpiStage → List Nat
  | idle => []
  | taken m => [m]
  | started m => [m]
  | waiting m => [m]
  | finished m => [m]

/-- Messages that are queued or handled are not completed. -/
structure QueueInv (s : SpiQueue) : Prop where
  stage : StageInv s
  open_ : ∀ m ∈ s.stage.message ++ s.queue, s.completed m = false
  fresh : ∀ m, s.next ≤ m → s.completed m = false
  below : ∀ m ∈ s.stage.message ++ s.queue, m < s.next
  nodup : (s.stage.message ++ s.queue).Nodup
  untouched : Untouched s

section Steps

variable {msgs : Nat → List SpiTransfer × Nat} {s s' : SpiQueue} {m : Nat}

/-- A step that leaves the messages as they are. -/
theorem QueueInv.of_stage (h : QueueInv s) (hstage : StageInv s')
    (hmsg : s'.stage.message = s.stage.message) (hq : s'.queue = s.queue) (hn : s'.next = s.next)
    (hc : s'.completed = s.completed) (ht : s'.touched = s.touched)
    (hm : s'.miscounted = s.miscounted) : QueueInv s' := by
  refine ⟨hstage, ?_, ?_, ?_, ?_, ?_⟩
  · rw [hmsg, hq, hc]
    exact h.open_
  · rw [hn, hc]
    exact h.fresh
  · rw [hmsg, hq, hn]
    exact h.below
  · rw [hmsg, hq]
    exact h.nodup
  · rw [Untouched, ht, hm]
    exact h.untouched

theorem touch_of_open (h : s.completed m = false) : s.touch m = s := by
  rw [SpiQueue.touch, h, Bool.or_false]

/-- A frame is read for its own message. -/
theorem irqRx_own (h : s.completed m = false) (purged : Nat) :
    s.irqRx m m purged =
      if ((s.ri + 1 : Nat) : Int) = s.len then
        { s with ri := s.ri + 1, wire := s.wire.drop purged, xferStatus := 0 }
      else { s with ri := s.ri + 1 } := by
  rw [SpiQueue.irqRx, touch_of_open h, bne_self_eq_false, Bool.or_false]

theorem irqTx_own (h : s.completed m = false) :
    s.irqTx m = if (s.ti : Int) < s.len then s.txNext m else s := by
  rw [SpiQueue.irqTx, touch_of_open h]

/-- An interrupt during a transfer belongs to it: the frame on the way is the only one, and the next
one is sent unless it was the last. -/
theorem QueueInv.irq (h : QueueInv s) {m f : Nat} {wire : List Nat} (purged : Nat)
    (hw : s.wire = f :: wire) (hc : s.cursor = some m) :
    QueueInv (({ s with wire := wire }.irqRx m f purged).irqTx m) := by
  have hstage := h.stage
  have hopen : ∀ k ∈ s.stage.message, s.completed k = false := by
    intro k hk
    exact h.open_ k (List.mem_append_left _ hk)
  unfold StageInv at hstage
  split at hstage
  next k hs =>
    obtain ⟨hcur, hti, hwire⟩ := hstage
    rw [hc] at hcur
    cases hcur
    rcases hwire with hnil | ⟨hone, hbusy⟩
    · rw [hw] at hnil
      cases hnil
    · rw [hw] at hone
      cases hone
      rw [hw, List.length_singleton] at hti
      have hm : s.completed m = false := hopen m (by rw [hs]; exact List.mem_cons_self)
      rw [@irqRx_own { s with wire := [] } m hm]
      split
      next hend =>
        rw [@irqTx_own { s with ri := s.ri + 1, wire := [].drop purged, xferStatus := 0 } m hm]
        rw [if_neg (by dsimp only at hend ⊢; omega)]
        refine h.of_stage ?_ rfl rfl rfl rfl rfl rfl
        unfold StageInv
        dsimp only
        rw [hs]
        exact ⟨hc, by rw [List.drop_nil]; exact hti, .inl List.drop_nil⟩
      next hmore =>
        rw [@irqTx_own { s with ri := s.ri + 1, wire := [] } m hm]
        split
        next hsend =>
          refine h.of_stage ?_ rfl rfl rfl rfl rfl rfl
          unfold StageInv
          dsimp only [SpiQueue.txNext]
          rw [hs]
          exact ⟨hc, congrArg (· + 1) hti, .inr ⟨rfl, hbusy⟩⟩
        next =>
          refine h.of_stage ?_ rfl rfl rfl rfl rfl rfl
          unfold StageInv
          dsimp only
          rw [hs]
          exact ⟨hc, hti, .inl rfl⟩
  next k hs =>
    rw [hstage.2.1] at hw
    cases hw
  next =>
    rw [hstage] at hw
    cases hw

/-- A message is queued. -/
theorem QueueInv.transfer (h : QueueInv s) :
    QueueInv { s with queue := s.queue ++ [s.next], next := s.next + 1 } := by
  have hmem : ∀ m ∈ s.stage.message ++ (s.queue ++ [s.next]),
      m ∈ s.stage.message ++ s.queue ∨ m = s.next := by
    intro m hm
    rw [← List.append_assoc, List.mem_append, List.mem_singleton] at hm
    exact hm
  refine ⟨h.stage, fun m hm => ?_, fun m hm => ?_, fun m hm => ?_, ?_, h.untouched⟩
  · rcases hmem m hm with hm | rfl
    · exact h.open_ m hm
    · exact h.fresh _ (Nat.le_refl _)
  · exact h.fresh m (Nat.le_of_succ_le hm)
  · rcases hmem m hm with hm | rfl
    · exact Nat.lt_succ_of_lt (h.below m hm)
    · exact Nat.lt_succ_self _
  · dsimp only
    rw [← List.append_assoc, List.nodup_append]
    refine ⟨h.nodup, List.pairwise_singleton _ _, fun m hm k hk => ?_⟩
    rw [List.mem_singleton.mp hk]
    exact Nat.ne_of_lt (h.below m hm)

/-- A message is completed. -/
theorem QueueInv.complete (h : QueueInv s) (hs : s.stage = .finished m) :
    QueueInv { s with stage := .idle, completed := fun k => s.completed k || k == m } := by
  have hstage := h.stage
  have hopen := h.open_
  have hbelow := h.below
  have hnodup := h.nodup
  rw [StageInv, hs] at hstage
  rw [hs] at hopen hbelow hnodup
  refine ⟨hstage, fun k hk => ?_, fun k hk => ?_, fun k hk => ?_, ?_, h.untouched⟩
  · have hne : k ≠ m := by
      rintro rfl
      exact (List.nodup_cons.mp hnodup).1 hk
    show (s.completed k || k == m) = false
    rw [hopen k (List.mem_cons_of_mem m hk), beq_false_of_ne hne, Bool.or_false]
  · have hlt := hbelow m List.mem_cons_self
    have hne : k ≠ m := by
      rintro rfl
      exact Nat.lt_irrefl _ (Nat.lt_of_lt_of_le hlt hk)
    show (s.completed k || k == m) = false
    rw [h.fresh k hk, beq_false_of_ne hne, Bool.or_false]
  · exact hbelow k (List.mem_cons_of_mem m hk)
  · exact (List.nodup_cons.mp hnodup).2

theorem QueueInv.step (h : QueueInv s) {a : SpiQueueLabel} (hok : TimeoutOk s a)
    (he : spiQueueStep msgs s a = some s') : QueueInv s' := by
  have hstage := h.stage
  cases a with
  | transfer =>
    cases he
    exact h.transfer
  | take =>
    simp only [spiQueueStep] at he
    split at he
    next m queue hs hq =>
      split at he
      next =>
        cases he
        have hopen := h.open_
        have hbelow := h.below
        have hnodup := h.nodup
        rw [StageInv, hs] at hstage
        rw [hs, hq] at hopen hbelow hnodup
        exact ⟨hstage, hopen, h.fresh, hbelow, hnodup, h.untouched⟩
      next => cases he
    next => cases he
  | prepareFails =>
    simp only [spiQueueStep] at he
    split at he
    next m hs =>
      cases he
      rw [StageInv, hs] at hstage
      exact h.of_stage hstage (by rw [hs]; rfl) rfl rfl rfl rfl rfl
    next => cases he
  | xferInit =>
    simp only [spiQueueStep] at he
    split at he
    next m hs =>
      cases he
      rw [StageInv, hs] at hstage
      exact h.of_stage ⟨rfl, hstage, rfl, rfl⟩ (by rw [hs]; rfl) rfl rfl rfl rfl rfl
    next => cases he
  | send =>
    simp only [spiQueueStep] at he
    split at he
    next m hs =>
      cases he
      rw [StageInv, hs] at hstage
      obtain ⟨hcur, hwire, hti, hri⟩ := hstage
      refine h.of_stage ⟨hcur, ?_, .inr ⟨?_, rfl⟩⟩ (by rw [hs]; rfl) rfl rfl rfl rfl rfl
      · dsimp only [SpiQueue.txNext]
        rw [hti, hri, hwire]
        rfl
      · dsimp only [SpiQueue.txNext]
        rw [hwire]
        rfl
    next => cases he
  | irq purged =>
    simp only [spiQueueStep] at he
    split at he
    next f wire m hw hc =>
      cases he
      exact h.irq purged hw hc
    next => cases he
  | wake =>
    simp only [spiQueueStep] at he
    split at he
    next m hs =>
      split at he
      next hend =>
        cases he
        rw [StageInv, hs] at hstage
        rcases hstage.2.2 with hnil | ⟨-, hbusy⟩
        · exact h.of_stage hnil (by rw [hs]; rfl) rfl rfl rfl rfl rfl
        · exact absurd hbusy hend
      next => cases he
    next => cases he
  | timeout =>
    simp only [spiQueueStep] at he
    split at he
    next m hs =>
      split at he
      next =>
        cases he
        exact h.of_stage hok (by rw [hs]; rfl) rfl rfl rfl rfl rfl
      next => cases he
    next => cases he
  | complete =>
    simp only [spiQueueStep] at he
    split at he
    next m hs =>
      cases he
      exact h.complete hs
    next => cases he

theorem queueInv_start : QueueInv .start :=
  ⟨rfl, nofun, fun _ _ => rfl, nofun, List.nodup_nil, rfl, rfl⟩

theorem queueInv_reach {s₀ : SpiQueue} (h₀ : QueueInv s₀)
    (h : (spiQueueFrom msgs s₀).Reach TimeoutOk s) : QueueInv s := by
  apply System.Reach.invariant _ _ h
  · rintro s rfl
    exact h₀
  · intro s a s' hs hok he
    exact hs.step hok he

theorem irqRx_touched (s : SpiQueue) (m f purged : Nat) :
    (s.irqRx m f purged).touched = (s.touched || s.completed m) := by
  unfold SpiQueue.irqRx
  dsimp only
  split
  next => rfl
  next => rfl

theorem irqTx_touched (h : s.touched = true) : (s.irqTx m).touched = true := by
  unfold SpiQueue.irqTx
  split
  next =>
    show (s.touched || s.completed m) = true
    rw [h, Bool.true_or]
  next => exact h

/-- After a timeout with a frame on the way the frame comes back for a message that is complete. -/
theorem touched_after_timeout (h : QueueInv s) (he : spiQueueStep msgs s .timeout = some s')
    (hwire : s.wire ≠ []) :
    ∃ s'', (spiQueueFrom msgs s').Reach TimeoutOk s'' ∧ s''.touched = true := by
  have hstage := h.stage
  simp only [spiQueueStep] at he
  split at he
  next m hs =>
    split at he
    next =>
      cases he
      rw [StageInv, hs] at hstage
      obtain ⟨hcur, -, hw | ⟨hw, -⟩⟩ := hstage
      · exact absurd hw hwire
      · generalize hs' : ({ s with stage := .finished m, xferStatus := 0 } : SpiQueue) = s'
        generalize hd : ({ s' with
          stage := .idle
          completed := fun k => s'.completed k || k == m } : SpiQueue) = d
        have hcomplete : spiQueueStep msgs s' .complete = some d := by
          rw [← hd, ← hs']
          rfl
        have hirq : spiQueueStep msgs d (.irq 0) =
            some (({ d with wire := [] }.irqRx m m 0).irqTx m) := by
          have hdw : d.wire = [m] := by
            rw [← hd, ← hs']
            exact hw
          have hdc : d.cursor = some m := by
            rw [← hd, ← hs']
            exact hcur
          rw [spiQueueStep, hdw, hdc]
        have hreach : (spiQueueFrom msgs s').Reach TimeoutOk d :=
          .step (a := .complete) (.init rfl) trivial hcomplete
        refine ⟨_, .step (a := .irq 0) hreach trivial hirq, ?_⟩
        apply irqTx_touched
        rw [irqRx_touched, ← hd]
        show (s'.touched || (s'.completed m || m == m)) = true
        rw [beq_self_eq_true, Bool.or_true, Bool.or_true]
    next => cases he
  next => cases he

end Steps

theorem timeoutOk_of_ne {s : SpiQueue} {a : SpiQueueLabel} (h : a ≠ .timeout) : TimeoutOk s a := by
  cases a with
  | timeout => exact absurd rfl h
  | _ => trivial

/-- Whatever messages are queued, in every run in which no message times out with a frame on the way
no finished message is accessed and no frame is counted for another message; and a next step keeps
it so in all runs of this kind that continue with it exactly if it is not such a timeout. -/
theorem spi_finished_untouched (msgs : Nat → List SpiTransfer × Nat) {s : SpiQueue}
    (h : (spiQueueFrom msgs .start).Reach TimeoutOk s) :
    Untouched s ∧ ∀ a s', spiQueueStep msgs s a = some s' →
      ((∀ s'', (spiQueueFrom msgs s').Reach TimeoutOk s'' → Untouched s'') ↔ TimeoutOk s a) := by
  have hinv := queueInv_reach queueInv_start h
  refine ⟨hinv.untouched, fun a s' he => ⟨fun hall => ?_, fun hok s'' hs'' => ?_⟩⟩
  · by_cases ha : a = .timeout
    · subst ha
      by_contra hwire
      obtain ⟨s'', hs'', ht⟩ := touched_after_timeout hinv he hwire
      rw [(hall s'' hs'').1] at ht
      cases ht
    · exact timeoutOk_of_ne ha
  · exact (queueInv_reach (hinv.step hok he) hs'').untouched

/-- Two messages, of two bytes and of one, in frames of 8 bits. -/
def twoMessages (m : Nat) : List SpiTransfer × Nat := ([⟨none, true, 2 - m⟩], 8)

/-- The first message is transferred and completed. -/
theorem spi_finished_untouched_first :
    ∃ s, (spiQueueFrom twoMessages .start).exec .start
        [.transfer, .take, .xferInit, .send, .irq 0, .irq 0, .wake, .complete] = some s ∧
      s.completed 0 = true ∧ Untouched s := by
  refine ⟨_, rfl, rfl, ?_⟩
  have hreach := @System.reach_of_exec _ _ (spiQueueFrom twoMessages .start) TimeoutOk .start _
    [.transfer, .take, .xferInit, .send, .irq 0, .irq 0, .wake, .complete] (.init rfl)
    (fun s a ha => timeoutOk_of_ne fun h => absurd (h ▸ ha) (by decide)) rfl
  exact (spi_finished_untouched twoMessages hreach).1

/-- The first message times out after its first frame was sent. The frame comes back when it is
complete, or when the second message has been set up and is counted for that. -/
theorem spi_finished_touched :
    ((spiQueueFrom twoMessages .start).exec .start
        [.transfer, .take, .xferInit, .send, .timeout, .complete, .irq 0]).map (·.touched) =
        some true ∧
      ((spiQueueFrom twoMessages .start).exec .start
        [.transfer, .transfer, .take, .xferInit, .send, .timeout, .complete, .take, .xferInit,
          .irq 0]).map (fun s => (s.miscounted, s.ri)) = some (true, 1) := by
  decide

end LinuxStm32.Drivers.Spi
