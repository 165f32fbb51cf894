import LinuxStm32.Base.System
import LinuxStm32.Mach.DmacApi

/-!
# Who owns a DMA channel

`stm32_dma_ch_get` and `stm32_dma_ch_put` change the mark of a channel only
(`arch/arm/mach-stm32/dmac.c:159–208`): a handler and the enable bit stay as they are when the
channel is released. The owners of a channel are numbered by the calls that acquired it; the
histories `irqOwner` and `enOwner` hold the owners that registered the handler and that enabled
the channel last. An interrupt of a channel may come at any time, and the controller may switch
a channel off at any time.
-/

namespace LinuxStm32.Mach

open Base

/-- A call of a handler: who had registered it, and who owned the channel, if anyone did. -/
structure HandlerCall where
  ch : Nat
  handler : Nat
  registrant : Nat
  owner : Option Nat
  deriving DecidableEq, Repr

/-- The driver with the history of its owners. -/
structure DmacSys where
  d : Dmac
  owners : Nat → Nat
  irqOwner : Nat → Nat
  enOwner : Nat → Nat
  calls : List HandlerCall

/-- A call of the driver, an interrupt, or the end of a transfer. -/
inductive DmacAct
  | call (c : DmaCall)
  | irq (n : Nat)
  | stop (n : Nat)

namespace DmacSys

variable (s : DmacSys)

/-- The owner of a channel. -/
def owner (n : Nat) : Option Nat := if (s.d.dmaCh n).inUse then some (s.owners n) else none

/-- The histories after a call that returned 0. -/
def note (c : DmaCall) : DmacSys :=
  let n := c.ch.toNat
  match c with
  | .get _ => { s with owners := Function.update s.owners n (s.owners n + 1) }
  | .requestIrq .. => { s with irqOwner := Function.update s.irqOwner n (s.owners n) }
  | .enable _ => { s with enOwner := Function.update s.enOwner n (s.owners n) }
  | _ => s

/-- `stm32_dma_isr`, `arch/arm/mach-stm32/dmac.c:113`. -/
def isr (n : Nat) : DmacSys :=
  let calls := match (s.d.dmaCh n).irqHandler with
    | some h => ⟨n, h, s.irqOwner n, s.owner n⟩ :: s.calls
    | none => s.calls
  { s with d := s.d.clearIrqFlags n irqfAll, calls := calls }

/-- One step. -/
def step : DmacAct → Option DmacSys
  | .call c =>
    let s' := if (s.d.call c).1 = 0 then s.note c else s
    some { s' with d := (s.d.call c).2 }
  | .irq n => if n < 16 then some (s.isr n) else none
  | .stop n =>
    if n < 16 then
      some { s with d := s.d.setRegs n { s.d.regs n with cr := (s.d.regs n).cr &&& ~~~crEn } }
    else none

/-- The driver before the first call: no channel is acquired or enabled. -/
def Fresh : Prop :=
  (∀ n < 16, (s.d.dmaCh n).inUse = false ∧ (s.d.dmaCh n).irqHandler = none ∧
    (s.d.regs n).cr &&& crEn = 0#32) ∧ s.calls = []

end DmacSys

/-- All sequences of calls, interrupts and ends of transfers. -/
def dmacSystem : System DmacSys DmacAct where
  init := DmacSys.Fresh
  step := DmacSys.step

/-- A channel is released without a handler and disabled. -/
def PutOk (s : DmacSys) : DmacAct → Prop
  | .call (.put ch) => ∀ n : Nat, n < 16 → ch = n → (s.d.dmaCh n).inUse = true →
      (s.d.dmaCh n).irqHandler = none ∧ (s.d.regs n).cr &&& crEn = 0#32
  | _ => True

/-- What a channel that is handed out keeps of its earlier owners: nothing. -/
structure DmacSys.Exclusive (s : DmacSys) : Prop where
  get : ∀ n : Nat, n < 16 → (s.d.chGet n).1 = 0 →
    (s.d.dmaCh n).irqHandler = none ∧ (s.d.regs n).cr &&& crEn = 0#32
  exist : ∀ (n : Nat) (handler : Nat) (flags : BitVec 32) (data : Nat), n < 16 →
    (s.d.chRequestIrq n handler flags data 0).1 = -17 → s.owner n = some (s.irqOwner n)
  busy : ∀ (n : Nat) (dir fpctrl pl dbm circ : BitVec 8), n < 16 →
    (s.d.chInit n dir fpctrl pl dbm circ).1 = -16 → s.owner n = some (s.enOwner n)
  calls : ∀ c ∈ s.calls, c.owner = some c.registrant

/-! ### The invariant -/

/-- A channel's record and enable bit with its history. -/
structure ChView where
  priv : DmaChPriv
  cr : BitVec 32
  owners : Nat
  irqOwner : Nat
  enOwner : Nat

/-- A handler and the enable bit are those of the present owner. -/
structure ChView.Owned (v : ChView) : Prop where
  irq : v.priv.irqHandler ≠ none → v.priv.inUse = true ∧ v.owners = v.irqOwner
  en : v.cr &&& crEn ≠ 0#32 → v.priv.inUse = true ∧ v.owners = v.enOwner

namespace DmacSys

/-- What there is of a channel. -/
def view (s : DmacSys) (n : Nat) : ChView :=
  ⟨s.d.dmaCh n, (s.d.regs n).cr, s.owners n, s.irqOwner n, s.enOwner n⟩

/-- The invariant of runs that release channels without a handler and disabled. -/
structure Owned (s : DmacSys) : Prop where
  chans : ∀ n < 16, (s.view n).Owned
  calls : ∀ c ∈ s.calls, c.owner = some c.registrant

variable {s s' : DmacSys} {n : Nat} {c : DmaCall} {d : Dmac}

theorem Fresh.owned (h : s.Fresh) : s.Owned := by
  refine ⟨fun n hn => ⟨fun hirq => ?_, fun hen => ?_⟩, fun c hc => ?_⟩
  · exact absurd (h.1 n hn).2.1 hirq
  · exact absurd (h.1 n hn).2.2 hen
  · rw [h.2] at hc
    cases hc

/-- A step that touches one channel has to be looked at there only. -/
private theorem Owned.of_view (h : s.Owned) (hother : ∀ m < 16, m ≠ n → s'.view m = s.view m)
    (hself : (s'.view n).Owned) (hcalls : s'.calls = s.calls) : s'.Owned := by
  refine ⟨fun m hm => ?_, fun c hc => h.calls c (hcalls ▸ hc)⟩
  by_cases hmn : m = n
  · rw [hmn]
    exact hself
  · rw [hother m hm hmn]
    exact h.chans m hm

private theorem owner_eq_some {o : Nat} (h : (s.d.dmaCh n).inUse = true ∧ s.owners n = o) :
    s.owner n = some o := by
  rw [owner, if_pos h.1, h.2]

private theorem irqEnables_crEn (w flags : BitVec 32) :
    Dmac.irqEnables w flags &&& crEn = w &&& crEn := by
  have hset : ∀ v x : BitVec 32, ∀ on, x &&& crEn = 0#32 → ~~~x &&& crEn = crEn →
      Dmac.setBits v x on &&& crEn = v &&& crEn := by
    intro v x on h1 h2
    cases on with
    | true =>
      show (v ||| x) &&& crEn = _
      rw [BitVec.and_or_distrib_right, h1, BitVec.or_zero]
    | false =>
      show (v &&& ~~~x) &&& crEn = _
      rw [BitVec.and_assoc, h2]
  rw [Dmac.irqEnables, hset _ crHtie _ (by decide) (by decide),
    hset _ crTcie _ (by decide) (by decide)]

private theorem and_not_crEn (w : BitVec 32) : (w &&& ~~~crEn) &&& crEn = 0#32 := by
  have h : ~~~crEn &&& crEn = 0#32 := by decide
  rw [BitVec.and_assoc, h, BitVec.and_zero]

private theorem and_not_crTcie_crHtie (w : BitVec 32) :
    (w &&& ~~~(crTcie ||| crHtie)) &&& crEn = w &&& crEn := by
  have h : ~~~(crTcie ||| crHtie) &&& crEn = crEn := by decide
  rw [BitVec.and_assoc, h]

/-- The state after a call. -/
private def called (s : DmacSys) (c : DmaCall) (res : Int × Dmac) : DmacSys :=
  { (if res.1 = 0 then s.note c else s) with d := res.2 }

private theorem note_of_ne {m : Nat} (hne : m ≠ c.ch.toNat) :
    (s.note c).owners m = s.owners m ∧ (s.note c).irqOwner m = s.irqOwner m ∧
      (s.note c).enOwner m = s.enOwner m := by
  cases c with
  | get ch => exact ⟨Function.update_of_ne hne _ _, rfl, rfl⟩
  | requestIrq ch => exact ⟨rfl, Function.update_of_ne hne _ _, rfl⟩
  | enable ch => exact ⟨rfl, rfl, Function.update_of_ne hne _ _⟩
  | _ => exact ⟨rfl, rfl, rfl⟩

/-- A call that returned 0 leaves the histories of the other channels alone. -/
private theorem view_called {m : Nat} (hne : m ≠ c.ch.toNat)
    (hp : d.dmaCh m = s.d.dmaCh m) (hr : d.regs m = s.d.regs m) :
    (s.called c (0, d)).view m = s.view m := by
  obtain ⟨ho, hi, he⟩ := note_of_ne (s := s) hne
  have hs : s.called c (0, d) = { s.note c with d := d } := rfl
  rw [hs, view, view, hp, hr, ho, hi, he]

private theorem calls_note (s : DmacSys) (c : DmaCall) : (s.note c).calls = s.calls := by
  cases c <;> rfl

private theorem Owned.called (h : s.Owned) (hc : c.ch = n)
    (hother : ∀ m < 16, m ≠ n → d.dmaCh m = s.d.dmaCh m ∧ d.regs m = s.d.regs m)
    (hself : ((s.called c (0, d)).view n).Owned) : (s.called c (0, d)).Owned := by
  refine h.of_view (n := n) (fun m hm hne => ?_) hself (calls_note s c)
  have hm' : m ≠ c.ch.toNat := by
    rw [hc]
    exact hne
  exact view_called hm' (hother m hm hne).1 (hother m hm hne).2

private theorem Owned.call (h : s.Owned) (ok : PutOk s (.call c)) :
    (s.called c (s.d.call c)).Owned := by
  have hcase := s.d.call_case c
  generalize s.d.call c = res at hcase
  cases hcase with
  | kept _ rv hrv =>
    rw [DmacSys.called, if_neg hrv]
    exact h
  | get n hn hu =>
    have hfree : (s.d.dmaCh n).inUse ≠ true := by
      rw [hu]
      decide
    refine h.called rfl (fun m _ hne => ⟨Dmac.dmaCh_setCh_of_ne hne _ _, rfl⟩) ⟨fun hirq => ?_, ?_⟩
    · simp only [view, DmacSys.called, Dmac.dmaCh_setCh_self] at hirq
      exact absurd ((h.chans n hn).irq hirq).1 hfree
    · exact fun he => absurd ((h.chans n hn).en he).1 hfree
  | put n hn hu =>
    obtain ⟨hnone, hen⟩ := ok n hn rfl hu
    refine h.called rfl (fun m _ hne => ⟨Dmac.dmaCh_setCh_of_ne hne _ _, rfl⟩) ⟨fun hirq => ?_, ?_⟩
    · simp only [view, DmacSys.called, Dmac.dmaCh_setCh_self] at hirq
      exact absurd hnone hirq
    · exact fun he => absurd hen he
  | enable n hn hu =>
    refine h.called rfl (fun m hm hne => ⟨rfl, Dmac.regs_setRegs_of_ne hn hm hne _ _⟩) ⟨?_, ?_⟩
    · exact (h.chans n hn).irq
    · exact fun _ => ⟨hu, (Function.update_self n (s.owners n) s.enOwner).symm⟩
  | disable n hn hu =>
    refine h.called rfl (fun m hm hne => ⟨rfl, Dmac.regs_setRegs_of_ne hn hm hne _ _⟩)
      ⟨?_, fun he => ?_⟩
    · exact (h.chans n hn).irq
    · simp only [view, DmacSys.called, Dmac.regs_setRegs_self] at he
      exact absurd (and_not_crEn _) he
  | requestIrq n hn hu hh handler flags data =>
    have huse :
        ((s.d.setCh n ⟨true, some handler, data, fun h => absurd h (Option.some_ne_none _)⟩).dmaCh
          n).inUse
        = true := by
      rw [Dmac.dmaCh_setCh_self]
    refine h.called rfl (fun m hm hne => ⟨Dmac.dmaCh_setCh_of_ne hne _ _,
      Dmac.regs_setRegs_of_ne hn hm hne _ _⟩) ⟨fun _ => ?_, fun he => ?_⟩
    · exact ⟨huse, (Function.update_self n (s.owners n) s.irqOwner).symm⟩
    · simp only [view, DmacSys.called, Dmac.regs_setRegs_self, irqEnables_crEn] at he
      exact ⟨huse, ((h.chans n hn).en he).2⟩
  | freeIrq n hn hu data =>
    refine h.called rfl (fun m hm hne => ⟨Dmac.dmaCh_setCh_of_ne hne _ _,
      Dmac.regs_setRegs_of_ne hn hm hne _ _⟩) ⟨fun hirq => ?_, fun he => ?_⟩
    · exact absurd (congrArg DmaChPriv.irqHandler (Dmac.dmaCh_setCh_self s.d n _)) hirq
    · simp only [view, DmacSys.called, Dmac.regs_setRegs_self, and_not_crTcie_crHtie] at he
      refine ⟨?_, ((h.chans n hn).en he).2⟩
      exact congrArg DmaChPriv.inUse (Dmac.dmaCh_setCh_self s.d n _)
  | configure c hk n hc hn hu _ r hr =>
    have hnote : s.called c (0, s.d.setRegs n r) = { s with d := s.d.setRegs n r } := by
      cases c <;> first | rfl | cases hk
    refine h.called hc (fun m hm hne => ⟨rfl, Dmac.regs_setRegs_of_ne hn hm hne _ _⟩) ?_
    rw [hnote]
    refine ⟨(h.chans n hn).irq, fun he => ?_⟩
    simp only [view, Dmac.regs_setRegs_self] at he
    exact absurd hr he

/-- Every step of such a run keeps the invariant. -/
theorem Owned.step {a : DmacAct} (h : s.Owned) (ok : PutOk s a) (he : s.step a = some s') :
    s'.Owned := by
  cases a with
  | call c =>
    cases he
    exact h.call ok
  | irq n =>
    rw [DmacSys.step] at he
    split at he
    · next hn =>
      cases he
      refine ⟨h.chans, fun c hc => ?_⟩
      simp only [isr] at hc
      split at hc
      · next handler hh =>
        rcases List.mem_cons.mp hc with rfl | hc
        · refine owner_eq_some ((h.chans n hn).irq ?_)
          exact hh ▸ Option.some_ne_none handler
        · exact h.calls c hc
      · exact h.calls c hc
    · cases he
  | stop n =>
    rw [DmacSys.step] at he
    split at he
    · next hn =>
      cases he
      refine h.of_view (n := n) (fun m hm hne => ?_) ⟨(h.chans n hn).irq, fun hen => ?_⟩ rfl
      · simp only [view, Dmac.regs_setRegs_of_ne hn hm hne]
        rfl
      · simp only [view, Dmac.regs_setRegs_self] at hen
        exact absurd (and_not_crEn _) hen
    · cases he

/-! ### Exclusive ownership -/

private theorem chValid_of_lt (hn : n < 16) : Dmac.chValid n = true := by
  rw [Dmac.chValid, Bool.and_eq_true, decide_eq_true_iff, decide_eq_true_iff]
  omega

private theorem chGet_eq_zero (hn : n < 16) (d : Dmac) :
    (d.chGet n).1 = 0 ↔ (d.dmaCh n).inUse = false := by
  rw [Dmac.chGet, if_pos (chValid_of_lt hn)]
  show (if (d.dmaCh n).inUse then (-16 : Int) else 0) = 0 ↔ _
  cases (d.dmaCh n).inUse <;> simp

/-- A handler that is already installed is the only reason for `-EEXIST`. -/
private theorem irqHandler_of_exist {handler data : Nat} {flags : BitVec 32} (hn : n < 16)
    (h : (d.chRequestIrq n handler flags data 0).1 = -17) :
    (d.dmaCh n).irqHandler ≠ none := by
  intro hnone
  rw [Dmac.chRequestIrq, Dmac.locked, if_pos (chValid_of_lt hn)] at h
  split at h
  · rw [Int.toNat_natCast, hnone] at h
    cases h
  · cases h

/-- The enable bit is the only reason for `-EBUSY`. -/
private theorem en_of_busy {dir fpctrl pl dbm circ : BitVec 8} (hn : n < 16)
    (h : (d.chInit n dir fpctrl pl dbm circ).1 = -16) : (d.regs n).cr &&& crEn ≠ 0#32 := by
  intro hen
  rw [Dmac.chInit, Dmac.configure, Dmac.locked, if_pos (chValid_of_lt hn)] at h
  split at h
  · rw [Int.toNat_natCast, if_neg (not_not.mpr hen)] at h
    split at h <;> cases h
  · cases h

/-- What is owned is exclusive. -/
theorem Owned.exclusive (h : s.Owned) : s.Exclusive where
  get n hn hget := by
    have hfree : (s.d.dmaCh n).inUse ≠ true := by
      rw [(chGet_eq_zero hn s.d).mp hget]
      decide
    constructor
    · by_contra hirq
      exact hfree ((h.chans n hn).irq hirq).1
    · by_contra hen
      exact hfree ((h.chans n hn).en hen).1
  exist n handler flags data hn he := owner_eq_some ((h.chans n hn).irq (irqHandler_of_exist hn he))
  busy n dir fpctrl pl dbm circ hn he := owner_eq_some ((h.chans n hn).en (en_of_busy hn he))
  calls := h.calls

/-- A channel released with a handler or enabled is handed out with it. -/
theorem not_exclusive_of_put {a : DmacAct} (h : ¬ PutOk s a) (he : s.step a = some s') :
    ¬ s'.Exclusive := by
  intro hex
  apply h
  cases a with
  | call c =>
    cases c with
    | put ch =>
      rintro n hn rfl hu
      cases he
      have hput : (s.d.call (.put n)).2 = s.d.setCh n { s.d.dmaCh n with inUse := false } := by
        rw [Dmac.call, Dmac.chPut, if_pos (chValid_of_lt hn)]
        rfl
      have hget := hex.get n hn
      simp only [hput, chGet_eq_zero hn, Dmac.dmaCh_setCh_self] at hget
      exact hget trivial
    | _ => trivial
  | _ => trivial

end DmacSys

/-- A channel is handed out without a handler of an earlier owner and disabled in every run that
releases channels so, and a step that releases one otherwise leads to a state where this fails. -/
theorem dma_ownership (s : DmacSys) :
    (dmacSystem.Reach PutOk s → s.Exclusive) ∧
      ∀ a s', dmacSystem.step s a = some s' → ¬ PutOk s a → ¬ s'.Exclusive := by
  refine ⟨fun h => ?_, fun a s' he hput => DmacSys.not_exclusive_of_put hput he⟩
  have howned : s.Owned := by
    refine @System.Reach.invariant _ _ _ _ (fun s => s.Owned) ?_ ?_ s h
    · exact fun _ hf => DmacSys.Fresh.owned hf
    · exact fun _ _ _ hi ok he => hi.step ok he
  exact howned.exclusive

/-- The driver at boot, with zeroed registers. -/
def bootDmac : DmacSys where
  d := ⟨fun _ => ⟨false, none, 0, noHandler_noData⟩, fun _ _ => ⟨0, 0, 0, 0, 0, 0⟩,
    fun _ _ => 0, []⟩
  owners := fun _ => 0
  irqOwner := fun _ => 0
  enOwner := fun _ => 0
  calls := []

private theorem reach_bootDmac (ok : DmacSys → DmacAct → Prop) : dmacSystem.Reach ok bootDmac :=
  .init ⟨fun _ _ => ⟨rfl, rfl, BitVec.zero_and⟩, rfl⟩

/-- An owner that frees its interrupt before it releases the channel leaves nothing behind. -/
theorem dma_ownership_handed_on :
    ∃ s : DmacSys, s.Exclusive ∧ (s.d.dmaCh 5).inUse = false ∧ s.owners 5 = 1 := by
  have freed := System.reach_of_exec [.call (.get 5), .call (.requestIrq 5 7 1 0 0),
    .call (.enable 5), .stop 5, .irq 5, .call (.freeIrq 5 0)] (reach_bootDmac PutOk)
    (by simp [PutOk]) rfl
  have released : dmacSystem.Reach PutOk _ := freed.step (a := .call (.put 5)) ?_ rfl
  · exact ⟨_, (dma_ownership _).1 released, rfl, rfl⟩
  · intro n _ hn _
    obtain rfl : n = 5 := by omega
    exact ⟨rfl, by decide⟩

/-- A channel released with its handler registered and enabled is handed out again with both, and
its interrupt calls the handler of the owner that released it. -/
theorem dma_put_keeps_handler :
    (∃ s, dmacSystem.Reach System.Always s ∧ (s.d.chGet 5).1 = 0 ∧
        (s.d.dmaCh 5).irqHandler = some 7 ∧ (s.d.regs 5).cr &&& crEn ≠ 0#32) ∧
      ∃ s, dmacSystem.Reach System.Always s ∧ s.calls = [⟨5, 7, 1, some 2⟩] ∧
        (s.d.chRequestIrq 5 8 1 0 0).1 = -17 ∧ (s.d.chInit 5 0 0 0 0 0).1 = -16 := by
  constructor
  · obtain ⟨s, he⟩ : ∃ s, dmacSystem.exec bootDmac
        [.call (.get 5), .call (.requestIrq 5 7 1 0 0), .call (.enable 5), .call (.put 5)] =
          some s := ⟨_, rfl⟩
    refine ⟨s, System.reach_of_exec _ (reach_bootDmac _) (fun _ _ _ => trivial) he, ?_⟩
    cases he
    exact ⟨rfl, rfl, by decide⟩
  · obtain ⟨s, he⟩ : ∃ s, dmacSystem.exec bootDmac
        [.call (.get 5), .call (.requestIrq 5 7 1 0 0), .call (.enable 5), .call (.put 5),
          .call (.get 5), .irq 5] = some s := ⟨_, rfl⟩
    refine ⟨s, System.reach_of_exec _ (reach_bootDmac _) (fun _ _ _ => trivial) he, ?_⟩
    cases he
    exact ⟨rfl, rfl, rfl⟩

end LinuxStm32.Mach
