import LinuxStm32.Base.Progress
import LinuxStm32.Base.Ring
import LinuxStm32.Drivers.Net.EthRx
import Mathlib.Data.List.Infix

/-!
# No lost wake-up on the receive side

A completed descriptor is seen by somebody: NAPI is scheduled, the poll is about to look, the
handler has read `RS`, or `RS` is set. With the ring this gives that frames are consumed in order
and once, and that a fair run consumes each of them.
-/

namespace LinuxStm32.Drivers.Net

open Base

/-- The points at which the poll keeps NAPI scheduled. -/
def PollPc.owns : PollPc → Bool
  | .get | .frame | .giveBack | .advance | .got => true
  | _ => false

namespace EthRx

variable {n : Nat} {s s' : EthRx} {a : RxAct} {p : Poll} {always : Prop}

/-! ### Wake-up -/

/-- The handler has read `RS` and not yet served it. -/
def handling (s : EthRx) : Bool :=
  match s.irq with
  | some (.ack status) | some (.rx status) => hasRs status
  | _ => false

/-- The poll, if it runs at all, will not look at the ring any more. -/
def Resting (s : EthRx) : Prop :=
  ∀ p, s.poll = some p → (p.pc = .unlock ∨ p.pc = .again) ∧ p.more = false

/-- Somebody will look at a completed descriptor. -/
structure Wake (s : EthRx) : Prop where
  owns : ∀ p, s.poll = some p → p.pc.owns = true → s.sched = true
  quiet : ∀ p, s.poll = some p → p.pc.locked = true → s.irq = none ∧ s.sched = false
  masks : s.irq = some .mask → s.sched = true
  enabled : ∀ p, s.poll = some p → p.pc = .check → s.rie = true
  rie : s.Resting → s.sched = false → s.opened = true → s.rie = true
  seen : s.Resting → s.sched = false → s.Pending → hasRs s.dmasr = true ∨ s.handling = true

/-- Nothing is to be seen to while NAPI is scheduled. -/
private theorem wake_of_sched (hs : s.sched = true)
    (hl : ∀ p, s.poll = some p → p.pc.locked = false) : s.Wake := by
  have hns : s.sched ≠ false := by
    rw [hs]
    decide
  refine ⟨fun _ _ _ => hs, fun p hp h => ?_, fun _ => hs, fun p hp h => ?_, fun _ h => absurd h hns,
    fun _ h => absurd h hns⟩
  · rw [hl p hp] at h
    cases h
  · have hpc := hl p hp
    rw [h] at hpc
    cases hpc

/-- The poll under the lock will still look, or has asked for another round. -/
private theorem wake_of_locked (hp : s.poll = some p) (hl : p.pc.locked = true)
    (hi : s.irq = none) (hs : s.sched = false) (hc : p.pc = .check → s.rie = true)
    (hu : p.pc = .unlock → p.more = true) : s.Wake := by
  have hrest : ¬ s.Resting := by
    intro h
    obtain ⟨hpc | hpc, hm⟩ := h p hp
    · rw [hu hpc] at hm
      cases hm
    · rw [hpc] at hl
      cases hl
  refine ⟨fun q hq ho => ?_, fun _ _ _ => ⟨hi, hs⟩, fun h => ?_, fun q hq h => ?_,
    fun h => absurd h hrest, fun h => absurd h hrest⟩
  · rw [hp] at hq
    cases hq
    cases hpc : p.pc <;> rw [hpc] at hl ho <;> cases hl <;> cases ho
  · rw [hi] at h
    cases h
  · rw [hp] at hq
    cases hq
    exact hc h

/-- The handler does not run under the lock. -/
private theorem Wake.not_locked (h : s.Wake) {pc : IrqPc} (hi : s.irq = some pc)
    (hp : s.poll = some p) : p.pc.locked = false := by
  by_contra hl
  have hnone := (h.quiet p hp (by simpa using hl)).1
  rw [hi] at hnone
  cases hnone

private theorem hasRs_or (w v : BitVec 32) (h : hasRs w = true ∨ hasRs v = true) :
    hasRs (w ||| v) = true := by
  simpa [hasRs] using h

private theorem hasRs_andNot {w v : BitVec 32} (h : hasRs w = true) (hv : hasRs v = false) :
    hasRs (w &&& ~~~v) = true := by
  rw [hasRs] at h hv ⊢
  rw [BitVec.getLsbD_and, BitVec.getLsbD_not, h, hv]
  rfl

/-- A status with `RS` has an event of the receive side. -/
private theorem rxMsk_of_hasRs {w : BitVec 32} (h : hasRs w = true) : w &&& dmasrRxMsk ≠ 0#32 := by
  intro h0
  have hbit := congrArg (fun v => BitVec.getLsbD v 6) h0
  rw [BitVec.getLsbD_and, show w.getLsbD 6 = true from h] at hbit
  exact absurd hbit (by decide)

private theorem hasRs_zero : hasRs 0#32 = false := rfl

private theorem ne_zero_of_hasRs {w : BitVec 32} (h : hasRs w = true) : w ≠ 0#32 := by
  rintro rfl
  cases h

/-- Every step of the poll keeps it so. -/
private theorem Wake.pollStep {skb : Bool} {pc : PollPc} (h : s.Wake) (hp : s.poll = some p)
    (hi : s.irq = none) (hpc : p.pc = pc) (hc : PollCase n skb s p pc s') : s'.Wake := by
  have howns (ho : pc.owns = true) : s.sched = true := h.owns p hp (hpc ▸ ho)
  have hquiet (hl : pc.locked = true) : s.sched = false := (h.quiet p hp (hpc ▸ hl)).2
  cases hc with
  | take | leave | frame | giveBack | advance =>
    exact wake_of_sched (howns rfl) (by rintro q ⟨⟩; rfl)
  | complete hlt => exact wake_of_locked rfl rfl hi rfl nofun nofun
  | full hge => exact wake_of_sched (howns rfl) nofun
  | enable => exact wake_of_locked rfl rfl hi (hquiet rfl) (fun _ => rfl) nofun
  | more | mask => exact wake_of_locked rfl rfl hi (hquiet rfl) nofun nofun
  | done hd =>
    refine ⟨?_, fun _ _ _ => ⟨hi, hquiet rfl⟩, h.masks, ?_, fun _ _ _ => h.enabled p hp hpc,
      fun _ _ hpend => absurd hpend hd⟩
    · rintro q ⟨⟩ ho
      cases ho
    · rintro q ⟨⟩ ho
      cases ho
  | ack => exact wake_of_locked rfl rfl hi (hquiet rfl) nofun (fun _ => rfl)
  | unlock =>
    have hrest : { s with poll := some { p with pc := .again } }.Resting → s.Resting := by
      intro hr q hq
      rw [hp] at hq
      cases hq
      exact ⟨.inl hpc, (hr _ rfl).2⟩
    refine ⟨?_, ?_, h.masks, ?_, fun hr => h.rie (hrest hr), fun hr => h.seen (hrest hr)⟩
    · rintro q ⟨⟩ ho
      cases ho
    · rintro q ⟨⟩ ho
      cases ho
    · rintro q ⟨⟩ ho
      cases ho
  | again => exact wake_of_sched rfl (by rintro q ⟨⟩; rfl)
  | exit hm =>
    by_cases hs : s.sched = true
    · exact wake_of_sched hs nofun
    · have hrest : s.Resting := by
        intro q hq
        rw [hp] at hq
        cases hq
        exact ⟨.inr hpc, by simpa using mt hm hs⟩
      exact ⟨nofun, nofun, h.masks, nofun, fun _ => h.rie hrest, fun _ => h.seen hrest⟩

/-- Every step keeps it so. -/
theorem Wake.step (h : s.Wake) (hc : RxCase n s a s') : s'.Wake := by
  cases hc with
  | start budget hs hp hb => exact wake_of_sched hs (by rintro p ⟨⟩; rfl)
  | poll skb p pc s' hp hi hpc hc => exact h.pollStep hp hi hpc hc
  | fire hi hm =>
    have hl : ∀ p, s.poll = some p → p.pc.locked = false := by
      intro p hp
      simpa [masked, hp] using hm
    refine ⟨h.owns, fun p hp hl' => ?_, nofun, h.enabled, h.rie, fun hr hs hd => .inl ?_⟩
    · rw [hl p hp] at hl'
      cases hl'
    · rcases h.seen hr hs hd with hrs | hrs
      · exact hrs
      · rw [handling, hi] at hrs
        cases hrs
  | irqAck status hi =>
    refine ⟨h.owns, fun p hp hl => ?_, fun hirq => ?_, h.enabled, h.rie, fun hr hs hd => ?_⟩
    · rw [h.not_locked hi hp] at hl
      cases hl
    · dsimp only at hirq
      split at hirq <;> cases hirq
    · cases hst : hasRs status with
      | true =>
        rw [handling, if_neg (ne_zero_of_hasRs hst)]
        exact .inr hst
      | false =>
        rcases h.seen hr hs hd with hrs | hrs
        · exact .inl (hasRs_andNot hrs hst)
        · rw [handling, hi] at hrs
          exact absurd (hst.symm.trans hrs) (by decide)
  | irqSched status hi hs stats => exact wake_of_sched rfl fun p hp => h.not_locked hi hp
  | irqDone status hi hs stats =>
    by_cases hsched : s.sched = true
    · exact wake_of_sched hsched fun p hp => h.not_locked hi hp
    · have hnot := hs (by simpa using hsched)
      refine ⟨h.owns, fun p hp hl => ?_, nofun, h.enabled, h.rie, fun hr hs' hd => ?_⟩
      · rw [h.not_locked hi hp] at hl
        cases hl
      · rcases h.seen hr hs' hd with hrs | hrs
        · exact .inl hrs
        · rw [handling, hi] at hrs
          exact absurd hnot (rxMsk_of_hasRs hrs)
  | irqMask hi => exact wake_of_sched (h.masks hi) fun p hp => h.not_locked hi hp
  | dma t hown ht =>
    refine ⟨h.owns, h.quiet, h.masks, h.enabled, h.rie, fun _ _ _ => .inl ?_⟩
    exact hasRs_or _ _ (.inr (by decide))
  | event bits =>
    refine ⟨h.owns, h.quiet, h.masks, h.enabled, h.rie, fun hr hs hd => ?_⟩
    exact (h.seen hr hs hd).imp_left fun hrs => hasRs_or _ _ (.inl hrs)
  | opens =>
    exact ⟨h.owns, h.quiet, h.masks, fun _ _ _ => rfl, fun _ _ _ => rfl, h.seen⟩

/-! ### The ring -/

/-- The poll has given a descriptor back and not yet gone on to the next. -/
def advancing (s : EthRx) : Bool :=
  match s.poll with
  | some p => decide (p.pc = .advance)
  | none => false

/-- The descriptors and the two indices go with the history. -/
structure RingInv (n : Nat) (s : EthRx) : Prop where
  ring : Ring n (fun t : RxSlot => rbdOwn t.stat = true) s.slot s.completed s.consumed.length
  dma : s.dmaIdx = s.completed.length % n
  index : s.advancing = false → s.rxDoneIdx = s.consumed.length % n
  past : s.advancing = true → (s.rxDoneIdx + 1) % n = s.consumed.length % n
  order : s.consumed <+: s.completed
  taken : ∀ p, s.poll = some p → p.pc = .frame ∨ p.pc = .giveBack → s.Pending
  within : ∀ p, s.poll = some p → p.pc ≠ .get → p.pc ≠ .got → p.rx < p.budget

/-- A completed descriptor waits exactly when not all are consumed. -/
theorem RingInv.pending_iff (h : s.RingInv n) (hn : 0 < n) (ha : s.advancing = false) :
    s.Pending ↔ s.consumed.length < s.completed.length := by
  rw [h.ring.lt_iff hn, Pending, h.index ha, Bool.not_eq_true]

/-- A step of the poll that leaves ring and history alone. -/
private theorem RingInv.of_poll {dmasr : BitVec 32} {rie sched : Bool} {stats : RxStats}
    {received : List (List UInt8)} {poll : Option Poll} (h : s.RingInv n)
    (ha : s.advancing = false)
    (hpoll : ∀ p, poll = some p → p.pc ≠ .advance ∧ (p.pc = .frame → s.Pending) ∧
      (p.pc = .giveBack → s.Pending) ∧ (p.pc ≠ .get → p.pc ≠ .got → p.rx < p.budget)) :
    RingInv n { s with
      dmasr := dmasr, rie := rie, sched := sched, stats := stats, received := received
      poll := poll } where
  ring := h.ring
  dma := h.dma
  index _ := h.index ha
  past hadv := by
    cases poll with
    | none => cases hadv
    | some p => exact absurd (of_decide_eq_true hadv) (hpoll p rfl).1
  order := h.order
  taken p hp hpc := hpc.elim (hpoll p hp).2.1 (hpoll p hp).2.2.1
  within p hp := (hpoll p hp).2.2.2

private theorem advancing_of_ne (hp : s.poll = some p) (h : p.pc ≠ .advance) :
    s.advancing = false := by
  rw [advancing, hp]
  exact decide_eq_false h

/-- Every step of the poll keeps ring and history together. -/
private theorem RingInv.pollStep {skb : Bool} {pc : PollPc} (h : s.RingInv n)
    (hn : 0 < n) (hp : s.poll = some p) (hpc : p.pc = pc) (hc : PollCase n skb s p pc s') :
    s'.RingInv n := by
  have ha (hne : pc ≠ .advance) : s.advancing = false := advancing_of_ne hp (hpc ▸ hne)
  have hin (h1 : pc ≠ .get) (h2 : pc ≠ .got) : p.rx < p.budget :=
    h.within p hp (hpc ▸ h1) (hpc ▸ h2)
  cases hc with
  | take hlt hd =>
    refine h.of_poll (ha nofun) ?_
    rintro q ⟨⟩
    exact ⟨nofun, fun _ => hd, nofun, fun _ _ => hlt⟩
  | leave =>
    refine h.of_poll (ha nofun) ?_
    rintro q ⟨⟩
    exact ⟨nofun, nofun, nofun, fun _ hq => absurd rfl hq⟩
  | frame stats received hr =>
    refine h.of_poll (ha nofun) ?_
    rintro q ⟨⟩
    exact ⟨nofun, nofun, fun _ => h.taken p hp (.inl hpc), fun _ _ => hin nofun nofun⟩
  | giveBack t ht =>
    have hd := h.taken p hp (.inr hpc)
    have hlt := (h.pending_iff hn (ha nofun)).mp hd
    have hentry := h.ring.entry _ (Nat.le_refl _) hlt
    have hlen : (s.consumed ++ [s.slot s.rxDoneIdx]).length = s.consumed.length + 1 := by
      rw [List.length_append, List.length_singleton]
    refine ⟨?_, h.dma, nofun, fun _ => ?_, ?_, ?_, ?_⟩
    · rw [hlen, h.index (ha nofun)]
      exact h.ring.pop hlt ht
    · rw [hlen, h.index (ha nofun), Nat.mod_add_mod]
    · rw [h.index (ha nofun)]
      obtain ⟨_, hget⟩ := List.getElem?_eq_some_iff.mp hentry
      rw [← hget]
      exact List.concat_get_prefix h.order hlt
    · rintro q ⟨⟩ (hq | hq) <;> cases hq
    · rintro q ⟨⟩ _ _
      exact hin nofun nofun
  | advance =>
    have hadv : s.advancing = true := by
      rw [advancing, hp]
      exact decide_eq_true hpc
    refine ⟨h.ring, h.dma, fun _ => h.past hadv, nofun, h.order, ?_, ?_⟩
    · rintro q ⟨⟩ (hq | hq) <;> cases hq
    · rintro q ⟨⟩ hq
      exact absurd rfl hq
  | complete hlt =>
    refine h.of_poll (ha nofun) ?_
    rintro q ⟨⟩
    exact ⟨nofun, nofun, nofun, fun _ _ => hlt⟩
  | full | exit => exact h.of_poll (ha nofun) nofun
  | again =>
    refine h.of_poll (ha nofun) ?_
    rintro q ⟨⟩
    exact ⟨nofun, nofun, nofun, fun hq => absurd rfl hq⟩
  | enable | more | done | mask | ack | unlock =>
    refine h.of_poll (ha nofun) ?_
    rintro q ⟨⟩
    exact ⟨nofun, nofun, nofun, fun _ _ => hin nofun nofun⟩

/-- The DMA completes a descriptor of its own, which the poll does not serve. -/
private theorem RingInv.slot_dma {t : RxSlot} (h : s.RingInv n) (hp : s.poll = some p)
    (hpc : p.pc = .frame ∨ p.pc = .giveBack) (hown : rbdOwn (s.slot s.dmaIdx).stat = true) :
    Function.update s.slot s.dmaIdx t s.rxDoneIdx = s.slot s.rxDoneIdx := by
  refine Function.update_of_ne (fun hidx => ?_) _ _
  have hd := h.taken p hp hpc
  rw [Pending, hidx, hown] at hd
  cases hd

/-- Every step keeps ring and history together. -/
theorem RingInv.step (h : s.RingInv n) (hn : 0 < n) (hc : RxCase n s a s') : s'.RingInv n := by
  cases hc with
  | start budget hs hp hb =>
    refine h.of_poll (by rw [advancing, hp]) ?_
    rintro q ⟨⟩
    exact ⟨nofun, nofun, nofun, fun hq => absurd rfl hq⟩
  | poll skb p pc s' hp hi hpc hc => exact h.pollStep hn hp hpc hc
  | dma t hown ht =>
    have hlen : (s.completed ++ [t]).length = s.completed.length + 1 := by
      rw [List.length_append, List.length_singleton]
    have hpush : Ring n (fun t : RxSlot => rbdOwn t.stat = true)
        (Function.update s.slot s.dmaIdx t) (s.completed ++ [t]) s.consumed.length := by
      rw [h.dma] at hown ⊢
      exact h.ring.push hn hown (by simpa using ht)
    refine ⟨hpush, ?_, h.index, h.past, h.order.trans (List.prefix_append _ _), ?_, h.within⟩
    · rw [hlen, h.dma, Nat.mod_add_mod]
    · intro p hp hpc
      show rbdOwn (Function.update s.slot s.dmaIdx t s.rxDoneIdx).stat = false
      rw [h.slot_dma hp hpc hown]
      exact h.taken p hp hpc
  | fire | irqAck | irqSched | irqDone | irqMask | event | opens =>
    exact ⟨h.ring, h.dma, h.index, h.past, h.order, h.taken, h.within⟩

/-! ### The frames passed on -/

/-- The descriptors that the poll is done with, save for giving them back. -/
def passed (s : EthRx) : List RxSlot :=
  if s.poll.map Poll.pc = some .giveBack then s.consumed ++ [s.slot s.rxDoneIdx] else s.consumed

private theorem passed_of_none (hp : s.poll = none) : s.passed = s.consumed := by
  rw [passed, hp]
  rfl

/-- The frames received are those of some of the descriptors without an error, in order; of all of
them, if there was always a buffer. -/
def Passes (always : Prop) (s : EthRx) : Prop :=
  ∃ l, l.Sublist (s.passed.filter RxSlot.intact) ∧ s.received = l.map RxSlot.frame ∧
    (always → l = s.passed.filter RxSlot.intact)

theorem Passes.step (h : s.Passes always) (hring : s.RingInv n)
    (ha : always → a ≠ .poll false) (hc : RxCase n s a s') : s'.Passes always := by
  have hsame (hp : s'.passed = s.passed) (hr : s'.received = s.received) : s'.Passes always := by
    rw [Passes, hp, hr]
    exact h
  cases hc with
  | poll skb p pc s' hp hi hpc hc =>
    cases hc with
    | frame stats received hr =>
      obtain ⟨l, hl, hrec, hall⟩ := h
      have hpass : s.passed = s.consumed := by simp [passed, hp, hpc]
      rw [hpass] at hl hall
      have hfilter : EthRx.passed { s with
            stats := stats, received := received, poll := some { p with pc := .giveBack } } =
          s.consumed ++ [s.slot s.rxDoneIdx] := rfl
      rw [Passes, hfilter, List.filter_append]
      refine ⟨l ++ [s.slot s.rxDoneIdx].filter fun t => skb && t.intact, ?_, ?_, fun halways => ?_⟩
      · refine hl.append (List.monotone_filter_right _ fun t ht => ?_)
        exact (Bool.and_eq_true_iff.mp ht).2
      · rw [List.map_append, ← hrec, hr]
      · have hskb : skb = true := by simpa using ha halways
        rw [hall halways, hskb]
        rfl
    | _ => exact hsame (by simp [passed, hp, hpc]) rfl
  | start budget hs hp hb => exact hsame (by simp [passed, hp]) rfl
  | dma t hown ht =>
    refine hsame ?_ rfl
    cases hp : s.poll with
    | none => simp [passed, hp]
    | some p =>
      by_cases hpc : p.pc = .giveBack
      · simp [passed, hp, hpc, hring.slot_dma hp (.inr hpc) hown]
      · simp [passed, hp, hpc]
  | _ => exact hsame rfl rfl

/-! ### Every state -/

/-- What holds in every state. -/
structure RxInv (n : Nat) (s : EthRx) : Prop where
  wake : s.Wake
  ring : s.RingInv n

theorem Started.rxInv (h : s.Started) : s.RxInv n := by
  obtain ⟨hown, hdone, hdma, _, hopen, hsched, hpoll, hirq, hcom, hcon, _⟩ := h
  have hadv : s.advancing = false := by rw [advancing, hpoll]
  have hno : ∀ p, s.poll ≠ some p := by
    intro p hp
    rw [hpoll] at hp
    cases hp
  refine ⟨⟨fun p hp => absurd hp (hno p), fun p hp => absurd hp (hno p), fun h => ?_,
    fun p hp => absurd hp (hno p), fun _ _ h => ?_, fun _ _ h => ?_⟩,
    ⟨?_, ?_, fun _ => ?_, fun h => ?_, ?_, fun p hp => absurd hp (hno p),
    fun p hp => absurd hp (hno p)⟩⟩
  · rw [hirq] at h
    cases h
  · rw [hopen] at h
    cases h
  · rw [Pending, hown] at h
    cases h
  · rw [hcom, hcon]
    exact Ring.empty fun k _ => hown k
  · rw [hdma, hcom, List.length_nil, Nat.zero_mod]
  · rw [hdone, hcon, List.length_nil, Nat.zero_mod]
  · rw [hadv] at h
    cases h
  · rw [hcon]
    exact List.nil_prefix

theorem Started.passes (h : s.Started) : s.Passes always := by
  obtain ⟨_, _, _, _, _, _, hpoll, _, _, hcon, hrec⟩ := h
  have hpass : s.passed = [] := by simp [passed, hpoll, hcon]
  rw [Passes, hpass, hrec]
  exact ⟨[], List.Sublist.refl _, rfl, fun _ => rfl⟩

theorem RxInv.step (h : s.RxInv n) (hn : 0 < n) (hc : RxCase n s a s') : s'.RxInv n :=
  ⟨h.wake.step hc, h.ring.step hn hc⟩

/-- No wake-up is lost, and frames are consumed once and in ring order: with nothing running, a
completed next descriptor has NAPI scheduled or its interrupt due; what is consumed is a prefix
of what was completed; the rest is in its slots, and the other slots are back with the DMA. -/
structure RxOk (n : Nat) (s : EthRx) : Prop where
  wakes : s.opened = true → s.poll = none → s.irq = none → s.Pending →
    s.sched = true ∨ hasRs s.dmasr = true ∧ s.rie = true
  index : s.poll = none → s.rxDoneIdx = s.consumed.length % n
  order : s.consumed <+: s.completed
  held : ∀ k, s.consumed.length ≤ k → k < s.completed.length →
    s.completed[k]? = some (s.slot (k % n))
  given : ∀ k, s.completed.length ≤ k → k < s.consumed.length + n →
    rbdOwn (s.slot (k % n)).stat = true
  all : s.poll = none → ¬ s.Pending → s.consumed = s.completed
  frames : s.poll = none →
    ∃ l, List.Sublist l (s.consumed.filter RxSlot.intact) ∧ s.received = l.map RxSlot.frame

theorem RxInv.rxOk (h : s.RxInv n) (hpass : s.Passes always) (hn : 0 < n) :
    s.RxOk n where
  wakes hopen hp hi hd := by
    by_cases hs : s.sched = true
    · exact .inl hs
    · have hs' : s.sched = false := by simpa using hs
      have hrest : s.Resting := by
        intro p hp'
        rw [hp] at hp'
        cases hp'
      refine .inr ⟨?_, h.wake.rie hrest hs' hopen⟩
      rcases h.wake.seen hrest hs' hd with hrs | hrs
      · exact hrs
      · rw [handling, hi] at hrs
        cases hrs
  index hp := h.ring.index (by rw [advancing, hp])
  order := h.ring.order
  held := h.ring.ring.entry
  given := h.ring.ring.free
  all hp hd := by
    have ha : s.advancing = false := by rw [advancing, hp]
    have hge := mt (h.ring.pending_iff hn ha).mpr hd
    exact h.ring.order.eq_of_length_le (Nat.not_lt.mp hge)
  frames hp := by
    obtain ⟨l, hl, hrec, _⟩ := hpass
    rw [passed_of_none hp] at hl
    exact ⟨l, hl, hrec⟩

end EthRx

/-! ### Progress -/

/-- What the processor may be due to do. -/
inductive RxTask
  | poll
  | start
  | irq
  | fire
  deriving DecidableEq, Repr

/-- The poll and the handler are not abandoned, `net_rx_action` serves scheduled NAPI, and the
interrupt comes while `RS` and `RIE` are set. -/
def RxTask.due : RxTask → EthRx → Prop
  | .poll, s => s.poll ≠ none
  | .start, s => s.sched = true ∧ s.poll = none
  | .irq, s => s.irq ≠ none
  | .fire, s => hasRs s.dmasr = true ∧ s.rie = true

/-- How far a poll is from giving the next completed descriptor back. -/
def Poll.rank (p : Poll) : Nat :=
  match p.pc with
  | .giveBack => 1
  | .frame => 2
  | .get => if p.rx < p.budget then 3 else 6
  | .advance => 7
  | .got => if p.rx < p.budget then 11 else 5
  | .enable => 10
  | .check => 9
  | .mask => 8
  | .ack => 7
  | .unlock => if p.more then 6 else 9
  | .again => if p.more then 5 else 8

/-- The step that does a task. -/
def RxTask.does : RxTask → RxAct → Prop
  | .poll, .poll _ => True
  | .start, .start _ => True
  | .irq, .irq => True
  | .fire, .fire => True
  | _, _ => False

namespace EthRx

variable {n : Nat} {s s' : EthRx} {a : RxAct} {p : Poll} {c : Nat}

/-- What a completed descriptor is waiting for. -/
def task (s : EthRx) : RxTask :=
  if s.poll ≠ none then .poll else if s.sched then .start
  else if s.handling then .irq else .fire

/-- How far the device is from giving the next completed descriptor back. -/
def rank (s : EthRx) : Nat :=
  match s.poll with
  | some p => p.rank
  | none =>
    if s.sched then 4
    else match s.irq with
      | some (.ack status) => if hasRs status then 6 else 7
      | some (.rx status) => if hasRs status then 5 else 7
      | _ => 7

/-- A descriptor is waiting while `c` have been consumed. -/
def Waits (c : Nat) (s : EthRx) : Prop :=
  s.opened = true ∧ s.consumed.length = c ∧ c < s.completed.length

private theorem rank_some (hp : s.poll = some p) : s.rank = p.rank := by
  rw [rank, hp]

private theorem rank_sched (hp : s.poll = none) (hs : s.sched = true) : s.rank = 4 := by
  rw [rank, hp]
  exact if_pos hs

private theorem rank_le (hp : s.poll = none) : s.rank ≤ 7 := by
  rw [rank, hp]
  dsimp only
  split
  · decide
  · split
    · split <;> decide
    · split <;> decide
    · exact Nat.le_refl 7

private theorem task_some (hp : s.poll = some p) : s.task = .poll := by
  rw [task, hp]
  exact if_pos (Option.some_ne_none p)

private theorem task_sched (hp : s.poll = none) (hs : s.sched = true) : s.task = .start := by
  rw [task, hp, hs]
  rfl

/-- A descriptor that waits is seen by the poll. -/
private theorem Waits.pending (hw : s.Waits c) (h : s.RxInv n) (hn : 0 < n)
    (hp : s.poll = some p) (hpc : p.pc ≠ .advance) : s.Pending := by
  rw [h.ring.pending_iff hn (advancing_of_ne hp hpc), hw.2.1]
  exact hw.2.2

/-- A step of the poll gives a descriptor back or gets nearer to it. -/
private theorem Waits.poll {skb : Bool} {pc : PollPc} (hw : s.Waits c)
    (h : s.RxInv n) (hn : 0 < n) (hp : s.poll = some p) (hpc : p.pc = pc)
    (hc : PollCase n skb s p pc s') :
    c < s'.consumed.length ∨ s'.Waits c ∧ s'.rank < s.rank := by
  have hpend (hne : pc ≠ .advance) : s.Pending := hw.pending h hn hp (hpc ▸ hne)
  rw [rank_some hp, Poll.rank, hpc]
  cases hc with
  | take hlt _ => exact .inr ⟨hw, by simp [rank, Poll.rank, hlt]⟩
  | leave hd =>
    have hge : ¬ p.rx < p.budget := fun hlt => hd hlt (hpend nofun)
    exact .inr ⟨hw, by simp [rank, Poll.rank, hge]⟩
  | giveBack t _ =>
    refine .inl ?_
    rw [List.length_append, hw.2.1]
    exact Nat.lt_succ_self c
  | advance =>
    refine .inr ⟨hw, ?_⟩
    simp only [rank, Poll.rank]
    split <;> decide
  | complete hlt => exact .inr ⟨hw, by simp [rank, Poll.rank, hlt]⟩
  | full hge =>
    have hs := h.wake.owns p hp (by rw [hpc]; rfl)
    exact .inr ⟨hw, by simp [rank, hs, Nat.not_lt.mpr hge]⟩
  | done hd => exact absurd (hpend nofun) hd
  | unlock =>
    refine .inr ⟨hw, ?_⟩
    simp only [rank, Poll.rank]
    split <;> decide
  | again hm _ =>
    have hlt := h.ring.within p hp (by rw [hpc]; decide) (by rw [hpc]; decide)
    exact .inr ⟨hw, by simp [rank, Poll.rank, hlt, hm]⟩
  | exit hm =>
    refine .inr ⟨hw, ?_⟩
    dsimp only
    split
    · next hmore =>
      have hrank : ({ s with poll := none } : EthRx).rank = 4 := rank_sched rfl (hm hmore)
      rw [hrank]
      decide
    · exact Nat.lt_of_le_of_lt (rank_le rfl) (by decide)
  | frame | enable | more | mask | ack => exact .inr ⟨hw, by simp [rank, Poll.rank]⟩

/-- A step that neither brings the device nearer nor takes it away from giving one back. -/
def Kept (s s' : EthRx) (a : RxAct) : Prop :=
  s'.rank = s.rank ∧ s'.task = s.task ∧ ¬ RxTask.does s.task a

private theorem kept_of_poll (hp : s.poll = some p) (hp' : s'.poll = some p)
    (ha : ∀ skb, a ≠ .poll skb) : Kept s s' a := by
  rw [Kept, rank_some hp, rank_some hp', task_some hp, task_some hp']
  refine ⟨rfl, rfl, fun hdoes => ?_⟩
  cases a with
  | poll skb => exact ha skb rfl
  | _ => exact hdoes

private theorem kept_of_sched (hp : s.poll = none) (hp' : s'.poll = none) (hs : s.sched = true)
    (hs' : s'.sched = true) (ha : ∀ budget, a ≠ .start budget) : Kept s s' a := by
  rw [Kept, rank_sched hp hs, rank_sched hp' hs', task_sched hp hs, task_sched hp' hs']
  refine ⟨rfl, rfl, fun hdoes => ?_⟩
  cases a with
  | start budget => exact ha budget rfl
  | _ => exact hdoes

/-- Neither the DMA nor `stm32_netdev_open` is waited for. -/
private theorem kept_of_env (hp : s'.poll = s.poll) (hs : s'.sched = s.sched)
    (hi : s'.irq = s.irq) (ha : ∀ k, ¬ RxTask.does k a) : Kept s s' a := by
  have hh : s'.handling = s.handling := by rw [handling, handling, hi]
  refine ⟨?_, ?_, ha _⟩
  · rw [rank, rank, hp, hs, hi]
  · rw [task, task, hp, hs, hh]

/-- A step of the handler is waited for only if it can schedule NAPI. -/
private theorem kept_or_lt_of_irq (hp' : s'.poll = s.poll) (hs' : s.sched = true → s'.sched = true)
    (hidle : s.poll = none → s.sched = false → s'.rank < s.rank ∨ Kept s s' a)
    (ha : ∀ skb, a ≠ .poll skb) (ha' : ∀ budget, a ≠ .start budget) :
    s'.rank < s.rank ∨ Kept s s' a := by
  cases hp : s.poll with
  | some p => exact .inr (kept_of_poll hp (hp'.trans hp) ha)
  | none =>
    cases hs : s.sched with
    | true => exact .inr (kept_of_sched hp (hp'.trans hp) hs (hs' hs) ha')
    | false => exact hidle hp hs

/-- With no poll and NAPI not scheduled, the interrupt has been read or is due. -/
private theorem Waits.resting (hw : s.Waits c) (h : s.RxInv n) (hn : 0 < n)
    (hp : s.poll = none) (hs : s.sched = false) :
    s.rie = true ∧ (hasRs s.dmasr = true ∨ s.handling = true) := by
  have hrest : s.Resting := by
    intro p hp'
    rw [hp] at hp'
    cases hp'
  have hd : s.Pending := by
    rw [h.ring.pending_iff hn (by rw [advancing, hp]), hw.2.1]
    exact hw.2.2
  exact ⟨h.wake.rie hrest hs hw.1, h.wake.seen hrest hs hd⟩

/-- Every step gives a descriptor back, gets the device nearer or leaves it where it is. -/
private theorem Waits.step (hw : s.Waits c) (h : s.RxInv n) (hn : 0 < n) (hc : RxCase n s a s') :
    c < s'.consumed.length ∨ s'.Waits c ∧ (s'.rank < s.rank ∨ Kept s s' a) := by
  cases hc with
  | poll skb p pc s' hp hi hpc hc =>
    exact (hw.poll h hn hp hpc hc).imp_right fun h => ⟨h.1, .inl h.2⟩
  | start budget hs hp hb =>
    refine .inr ⟨hw, .inl ?_⟩
    rw [rank_sched hp hs, rank_some rfl]
    simp [Poll.rank, Nat.lt_of_succ_le hb]
  | fire hi hm =>
    refine .inr ⟨hw, kept_or_lt_of_irq rfl id (fun hp hs => .inl ?_) nofun nofun⟩
    obtain ⟨_, hrs | hrs⟩ := hw.resting h hn hp hs
    · simp [rank, hp, hs, hi, hrs]
    · rw [handling, hi] at hrs
      cases hrs
  | irqAck status hi =>
    refine .inr ⟨hw, kept_or_lt_of_irq rfl id (fun hp hs => ?_) nofun nofun⟩
    cases hst : hasRs status with
    | true =>
      refine .inl ?_
      simp [rank, hp, hs, hi, hst, ne_zero_of_hasRs hst]
    | false =>
      refine .inr ⟨?_, ?_, ?_⟩
      · by_cases h0 : status = 0#32 <;> simp [rank, hp, hs, hi, hst, h0, hasRs_zero]
      · by_cases h0 : status = 0#32 <;> simp [task, handling, hp, hs, hi, hst, h0, hasRs_zero]
      · simp [task, handling, hp, hs, hi, hst, RxTask.does]
  | irqSched status hi hs stats =>
    refine .inr ⟨hw, kept_or_lt_of_irq rfl (fun _ => rfl) (fun hp _ => .inl ?_) nofun nofun⟩
    simp only [rank, hp, hs, hi, ↓reduceIte, Bool.false_eq_true]
    split <;> decide
  | irqDone status hi hs stats =>
    refine .inr ⟨hw, kept_or_lt_of_irq rfl id (fun hp hs' => .inr ?_) nofun nofun⟩
    have hst : hasRs status = false := by
      by_contra hrs
      exact rxMsk_of_hasRs (by simpa using hrs) (hs hs')
    refine ⟨?_, ?_, ?_⟩
    · simp [rank, hp, hs', hi, hst]
    · simp [task, handling, hp, hs', hi, hst]
    · simp [task, handling, hp, hs', hi, hst, RxTask.does]
  | irqMask hi =>
    refine .inr ⟨hw, kept_or_lt_of_irq rfl id (fun _ hs => ?_) nofun nofun⟩
    rw [h.wake.masks hi] at hs
    cases hs
  | dma t _ _ =>
    refine .inr ⟨⟨hw.1, hw.2.1, ?_⟩,
      .inr (kept_of_env rfl rfl rfl fun k => by cases k <;> exact id)⟩
    rw [List.length_append]
    exact Nat.lt_add_right _ hw.2.2
  | event bits =>
    exact .inr ⟨hw, .inr (kept_of_env rfl rfl rfl fun k => by cases k <;> exact id)⟩
  | opens =>
    exact .inr ⟨⟨rfl, hw.2⟩, .inr (kept_of_env rfl rfl rfl fun k => by cases k <;> exact id)⟩

/-- What is waited for is due. -/
private theorem Waits.due (hw : s.Waits c) (h : s.RxInv n) (hn : 0 < n) :
    s.task.due s := by
  cases hp : s.poll with
  | some p =>
    rw [task_some hp, RxTask.due, hp]
    exact Option.some_ne_none p
  | none =>
    cases hs : s.sched with
    | true =>
      rw [task_sched hp hs]
      exact ⟨hs, hp⟩
    | false =>
      obtain ⟨hrie, hrs⟩ := hw.resting h hn hp hs
      cases hh : s.handling with
      | true =>
        have ht : s.task = .irq := by simp [task, hp, hs, hh]
        rw [ht]
        intro hi
        rw [handling, hi] at hh
        cases hh
      | false =>
        have ht : s.task = .fire := by simp [task, hp, hs, hh]
        rw [ht]
        exact ⟨hrs.resolve_right (by rw [hh]; decide), hrie⟩

/-- There is always a buffer for the frame. -/
def Buffers (_ : EthRx) (a : RxAct) : Prop := a ≠ .poll false

theorem inv_of_reach {env : EthRx → RxAct → Prop} {always : Prop} (hn : 0 < n)
    (henv : always → ∀ s a, env s a → a ≠ .poll false) (h : (ethRxSystem n).Reach env s) :
    s.RxInv n ∧ s.Passes always := by
  refine @System.Reach.invariant _ _ _ _ (fun s => s.RxInv n ∧ s.Passes always) ?_ ?_ s h
  · exact fun _ hi => ⟨Started.rxInv hi, Started.passes hi⟩
  · intro s a s' hi he hstep
    have hc := step_case hstep
    exact ⟨hi.1.step hn hc, hi.2.step hi.1.ring (fun halways => henv halways s a he) hc⟩

private theorem length_le_of_step (hc : RxCase n s a s') :
    s.completed.length ≤ s'.completed.length ∧ (s.opened = true → s'.opened = true) := by
  cases hc with
  | dma t _ _ =>
    rw [List.length_append]
    exact ⟨Nat.le_add_right _ _, id⟩
  | opens => exact ⟨Nat.le_refl _, fun _ => rfl⟩
  | poll _ _ _ _ _ _ _ hc => cases hc <;> exact ⟨Nat.le_refl _, id⟩
  | _ => exact ⟨Nat.le_refl _, id⟩

/-- Completed descriptors stay completed and an open device open. -/
private theorem run_mono (r : (ethRxSystem n).Run) (t d : Nat) :
    (r.state t).completed.length ≤ (r.state (t + d)).completed.length ∧
      ((r.state t).opened = true → (r.state (t + d)).opened = true) := by
  induction d with
  | zero => exact ⟨Nat.le_refl _, id⟩
  | succ d ih =>
    obtain ⟨hle, hopen⟩ := length_le_of_step (step_case (r.next (t + d)))
    exact ⟨Nat.le_trans ih.1 hle, fun h => hopen (ih.2 h)⟩

/-- In a fair run a waiting descriptor is given back. -/
private theorem eventually_consumed {r : (ethRxSystem n).Run} (hn : 0 < n)
    (hf : r.Fair RxTask.due RxTask.does) {c t : Nat} (hw : (r.state t).Waits c) :
    ∃ t' > t, c < (r.state t').consumed.length := by
  have hinv : ∀ t, (r.state t).RxInv n := fun t => (inv_of_reach hn False.elim (r.reach t)).1
  refine System.Run.leads_to hf (Waits c) (fun s => c < s.consumed.length) task rank
    (fun t hw => hw.due (hinv t) hn) (fun t hw => hw.step (hinv t) hn (step_case (r.next t))) hw

/-- In a fair run every completed descriptor is consumed. -/
private theorem eventually_all {r : (ethRxSystem n).Run} (hn : 0 < n)
    (hf : r.Fair RxTask.due RxTask.does) (d : Nat) : ∀ {k t : Nat}, (r.state t).opened = true →
      k < (r.state t).completed.length → k < (r.state t).consumed.length + d →
      ∃ t' ≥ t, k < (r.state t').consumed.length := by
  induction d with
  | zero => exact fun _ _ hd => ⟨_, Nat.le_refl _, hd⟩
  | succ d ih =>
    intro k t hopen hk hd
    by_cases hdone : k < (r.state t).consumed.length
    · exact ⟨t, Nat.le_refl t, hdone⟩
    · have hw : (r.state t).Waits (r.state t).consumed.length := ⟨hopen, rfl, by omega⟩
      obtain ⟨t', hlt, hmore⟩ := eventually_consumed hn hf hw
      obtain ⟨e, rfl⟩ := Nat.exists_eq_add_of_le (Nat.le_of_lt hlt)
      obtain ⟨hle, hopen'⟩ := run_mono r t e
      obtain ⟨t'', hle', hk'⟩ := ih (hopen' hopen) (Nat.lt_of_lt_of_le hk hle) (by omega)
      exact ⟨t'', by omega, hk'⟩

end EthRx

/-- In every run no wake-up is lost and frames are consumed once, in ring order, and given back;
those without an error are passed on in that order, all of them if there is always a buffer; in
every fair run of the open device each completed descriptor is consumed. -/
theorem eth_rx_no_lost_wakeup {n : Nat} (hn : 0 < n) :
    (∀ s, (ethRxSystem n).Reach System.Always s → s.RxOk n) ∧
      (∀ s, (ethRxSystem n).Reach EthRx.Buffers s → s.poll = none →
        s.received = (s.consumed.filter RxSlot.intact).map RxSlot.frame) ∧
      ∀ r : (ethRxSystem n).Run, r.Fair RxTask.due RxTask.does → ∀ t k,
        (r.state t).opened = true → k < (r.state t).completed.length →
        ∃ t' ≥ t, k < (r.state t').consumed.length := by
  refine ⟨fun s h => ?_, fun s h hp => ?_, fun r hf t k hopen hk => ?_⟩
  · obtain ⟨hinv, hpass⟩ := EthRx.inv_of_reach hn False.elim h
    exact hinv.rxOk hpass hn
  · obtain ⟨_, l, _, hrec, hall⟩ := EthRx.inv_of_reach hn (fun (_ : True) _ _ ha => ha) h
    rw [hrec, hall trivial, EthRx.passed_of_none hp]
  · exact EthRx.eventually_all hn hf (k + 1) hopen hk (by omega)

/-- The device with the DMA started and nothing received. -/
def startedRx : EthRx where
  slot := fun _ => ⟨1#32 <<< 31, []⟩
  rxDoneIdx := 0
  dmaIdx := 0
  dmasr := 0#32
  rie := false
  opened := false
  sched := false
  stats := ⟨0, 0, 0, 0, 0, 0, 0, 0, 0⟩
  received := []
  poll := none
  irq := none
  completed := []
  consumed := []

/-- One frame is received with a budget of one; the second poll finds nothing. -/
def oneFrame : List RxAct :=
  [.enable, .dma ⟨0x00440320#32, List.replicate 64 0⟩, .fire, .irq, .irq, .irq, .start 1] ++
    List.replicate 6 (.poll true) ++ [.start 1] ++ List.replicate 6 (.poll true)

/-- The frame is consumed in the fair run that goes on with nothing to do. -/
theorem eth_rx_no_lost_wakeup_one_frame :
    ∃ r : (ethRxSystem 2).Run, r.Fair RxTask.due RxTask.does ∧
      (∀ t, (r.state t).RxOk 2) ∧ (∃ t' ≥ 2, 0 < (r.state t').consumed.length) ∧
      ∃ s, (ethRxSystem 2).exec startedRx oneFrame = some s ∧
        s.received = [List.replicate 64 0] := by
  obtain ⟨s, he⟩ : ∃ s, (ethRxSystem 2).exec startedRx oneFrame = some s := ⟨_, rfl⟩
  have hinit : (ethRxSystem 2).init startedRx :=
    ⟨fun _ => rbdOwn_own, rfl, rfl, rfl, rfl, rfl, rfl, rfl, rfl, rfl, rfl⟩
  have hidle : (ethRxSystem 2).step s (.event 0#32) = some s := by
    cases he
    rfl
  have hnone : ∀ k, ¬ RxTask.due k s := by
    cases he
    intro k
    cases k <;> simp [RxTask.due] <;> decide
  refine ⟨.idling _ oneFrame (.event 0#32) hinit he hidle, System.Run.fair_idling hnone, ?_, ?_, ?_⟩
  · exact fun t => (eth_rx_no_lost_wakeup (by decide)).1 _ (System.Run.reach _ t)
  · exact (eth_rx_no_lost_wakeup (by decide)).2.2 _ (System.Run.fair_idling hnone) 2 0 rfl
      (Nat.zero_lt_one)
  · have hbuf : ∀ a ∈ oneFrame, a ≠ .poll false := by decide
    have hreach : (ethRxSystem 2).Reach EthRx.Buffers s :=
      System.reach_of_exec oneFrame (.init hinit) (fun _ => hbuf) he
    refine ⟨s, he, ((eth_rx_no_lost_wakeup (by decide)).2.1 s hreach ?_).trans ?_⟩
    · cases he
      rfl
    · cases he
      rfl

end LinuxStm32.Drivers.Net
