import LinuxStm32.Mach.GpioIrq

/-!
# Trigger types of GPIO interrupts

`stm32_gpio_irq_set_type`, `arch/arm/mach-stm32/gpio.c:340–382`, beside enabling and disabling. Each
EXTI line is used by one GPIO, the pin of its number of some port. `last` records the type set last
for a line and `since` the types set since it was disabled last, the newest first. Enabling line 15
writes behind the end of `exti_2_gpio`; `fault` records it, and what it overwrites is not modelled.
-/

namespace LinuxStm32.Mach

open Base

/-- `IRQ_TYPE_EDGE_RISING`. -/
def irqTypeEdgeRising : BitVec 32 := 1#32

/-- `IRQ_TYPE_EDGE_FALLING`. -/
def irqTypeEdgeFalling : BitVec 32 := 2#32

/-- `IRQ_TYPE_LEVEL_HIGH`. -/
def irqTypeLevelHigh : BitVec 32 := 4#32

/-- `IRQ_TYPE_LEVEL_LOW`. -/
def irqTypeLevelLow : BitVec 32 := 8#32

/-- `stm32_exti_set_rising`, `arch/arm/mach-stm32/exti.c:128`. -/
def Exti.setRising (e : Exti) (line : Nat) : Exti := { e with rtsr := setBit e.rtsr line }

/-- `stm32_exti_set_falling`, `arch/arm/mach-stm32/exti.c:143`. -/
def Exti.setFalling (e : Exti) (line : Nat) : Exti := { e with ftsr := setBit e.ftsr line }

/-- The registers after `stm32_gpio_irq_set_type` accepted a trigger. -/
def Exti.setTrigger (e : Exti) (line : Nat) (trigger : BitVec 32) : Exti :=
  let e := if trigger &&& irqTypeEdgeRising ≠ 0#32 then e.setRising line else e
  if trigger &&& irqTypeEdgeFalling ≠ 0#32 then e.setFalling line else e

/-- `stm32_gpio_irq_set_type`, `arch/arm/mach-stm32/gpio.c:340`: 0 or `-EINVAL`. -/
def GpioIrq.irqSetType (s : GpioIrq) (gpio : Nat) (trigger : BitVec 32) : Int × GpioIrq :=
  if gpioLen ≤ gpio ∨ trigger &&& (irqTypeLevelHigh ||| irqTypeLevelLow) ≠ 0#32 then (-22, s)
  else (0, { s with toExti := s.toExti.setTrigger (gpio % gpioPortPins) trigger })

/-- The edge types. -/
inductive EdgeType
  | rising
  | falling
  | both
  deriving DecidableEq, Repr

namespace EdgeType

/-- The flags of a type. -/
def trigger : EdgeType → BitVec 32
  | rising => irqTypeEdgeRising
  | falling => irqTypeEdgeFalling
  | both => irqTypeEdgeRising ||| irqTypeEdgeFalling

/-- The type has a rising edge. -/
def rises : EdgeType → Bool
  | falling => false
  | _ => true

/-- The type has a falling edge. -/
def falls : EdgeType → Bool
  | rising => false
  | _ => true

/-- Every edge of the first type is one of the second. -/
def Within (t u : EdgeType) : Prop :=
  (t.rises = true → u.rises = true) ∧ (t.falls = true → u.falls = true)

end EdgeType

/-- The chip and the history of the types. -/
structure GpioTrigger extends GpioIrq where
  last : Nat → Option EdgeType
  since : Nat → List EdgeType

/-- Calls for the GPIO of a line. -/
inductive TriggerAct
  | setType (line : Fin 16) (type : EdgeType)
  | enable (line : Fin 16)
  | disable (line : Fin 16)
  deriving DecidableEq, Repr

section Runs

variable (port : Fin 16 → Fin 9)

/-- The GPIO of a line. -/
def gpioOf (line : Fin 16) : Nat := (port line).val * gpioPortPins + line.val

/-- Set the type of the GPIO of a line. -/
def GpioTrigger.setType (s : GpioTrigger) (line : Fin 16) (type : EdgeType) : GpioTrigger :=
  { s with
    toGpioIrq := (s.irqSetType (gpioOf port line) type.trigger).2
    last := Function.update s.last line (some type)
    since := Function.update s.since line (type :: s.since line) }

/-- Enable the GPIO of a line. -/
def GpioTrigger.enable (s : GpioTrigger) (line : Fin 16) : GpioTrigger :=
  { s with toGpioIrq := s.irqEnable (gpioOf port line) }

/-- Disable the GPIO of a line. -/
def GpioTrigger.disable (s : GpioTrigger) (line : Fin 16) : GpioTrigger :=
  { s with
    toGpioIrq := s.irqDisable (gpioOf port line)
    since := Function.update s.since line [] }

/-- One call. -/
def triggerStep (s : GpioTrigger) : TriggerAct → Option GpioTrigger
  | .setType line type => some (s.setType port line type)
  | .enable line => some (s.enable port line)
  | .disable line => some (s.disable port line)

/-- All runs from `stm32_gpio_init`, after which all lines are masked and no trigger is selected. -/
def triggerSystem : System GpioTrigger TriggerAct where
  init s := gpioIrqSystem.init s.toGpioIrq ∧
    (∀ line < gpioPortPins, s.rtsr.getLsbD line = false ∧ s.ftsr.getLsbD line = false) ∧
    (∀ line, s.last line = none) ∧ ∀ line, s.since line = []
  step := triggerStep port

end Runs

/-- The trigger selection of every enabled interrupt is the type set last for it. -/
def TypesMatch (s : GpioTrigger) : Prop :=
  ∀ line : Fin 16, s.imr.getLsbD line = true → ∀ t, s.last line = some t →
    s.rtsr.getLsbD line = t.rises ∧ s.ftsr.getLsbD line = t.falls

/-- A type that is set for an enabled interrupt has every edge of the types set since the last
disable. When an interrupt with a type is enabled, some type was set since the last disable, and
the newest one has every edge of the others. -/
def TriggerOk (s : GpioTrigger) : TriggerAct → Prop
  | .setType line type => s.imr.getLsbD line = true → ∀ u ∈ s.since line, u.Within type
  | .enable line => ∀ t, s.last line = some t → s.since line ≠ [] ∧ ∀ u ∈ s.since line, u.Within t
  | .disable _ => True

/-! ### What the registers hold -/

/-- The trigger bits of a line are the edges of all types set since the last disable, and the newest
of these types is the type set last. -/
structure LineInv (s : GpioTrigger) (line : Nat) : Prop where
  rising : s.rtsr.getLsbD line = (s.since line).any EdgeType.rises
  falling : s.ftsr.getLsbD line = (s.since line).any EdgeType.falls
  last : ∀ t ts, s.since line = t :: ts → s.last line = some t

theorem gpioOf_mod (port : Fin 16 → Fin 9) (line : Fin 16) :
    gpioOf port line % gpioPortPins = line.val := by
  have hlt := line.isLt
  unfold gpioOf gpioPortPins
  omega

theorem setTrigger_bits (e : Exti) (line j : Nat) (hj : j < 32) (t : EdgeType) :
    (e.setTrigger line t.trigger).rtsr.getLsbD j =
        (e.rtsr.getLsbD j || (t.rises && decide (line = j))) ∧
      (e.setTrigger line t.trigger).ftsr.getLsbD j =
        (e.ftsr.getLsbD j || (t.falls && decide (line = j))) ∧
      (e.setTrigger line t.trigger).imr = e.imr := by
  cases t with
  | rising =>
    refine ⟨?_, ?_, rfl⟩
    · exact setBit_bit hj
    · exact (Bool.or_false _).symm
  | falling =>
    refine ⟨?_, ?_, rfl⟩
    · exact (Bool.or_false _).symm
    · exact setBit_bit hj
  | both => exact ⟨setBit_bit hj, setBit_bit hj, rfl⟩

section Steps

variable {port : Fin 16 → Fin 9} {s s' : GpioTrigger}

theorem irqSetType_eq (s : GpioIrq) (line : Fin 16) (t : EdgeType) :
    s.irqSetType (gpioOf port line) t.trigger =
      (0, { s with toExti := s.toExti.setTrigger line t.trigger }) := by
  have hport := (port line).isLt
  have hline := line.isLt
  have hlen : ¬ gpioLen ≤ gpioOf port line := by
    unfold gpioOf gpioLen gpioPortPins
    omega
  have hlevel : t.trigger &&& (irqTypeLevelHigh ||| irqTypeLevelLow) = 0#32 := by
    cases t <;> rfl
  rw [GpioIrq.irqSetType, if_neg (not_or.mpr ⟨hlen, not_not_intro hlevel⟩), gpioOf_mod]

/-- Setting a type adds its edges to the trigger bits of its line. -/
theorem setType_spec (s : GpioTrigger) (line j : Fin 16) (t : EdgeType) :
    (s.setType port line t).rtsr.getLsbD j =
        (s.rtsr.getLsbD j || (t.rises && decide (line = j))) ∧
      (s.setType port line t).ftsr.getLsbD j =
        (s.ftsr.getLsbD j || (t.falls && decide (line = j))) ∧
      (s.setType port line t).imr = s.imr := by
  have hj : j.val < 32 := Nat.lt_trans j.isLt (by decide)
  have hbits := setTrigger_bits s.toExti line j hj t
  rw [show decide (line.val = j.val) = decide (line = j) by simp [Fin.ext_iff]] at hbits
  rw [GpioTrigger.setType, irqSetType_eq]
  exact hbits

/-- Enabling sets the mask bit of its line only. -/
theorem enable_spec (s : GpioTrigger) (line j : Fin 16) :
    (s.enable port line).imr.getLsbD j = (s.imr.getLsbD j || decide (line = j)) := by
  have hj : j.val < 32 := Nat.lt_trans j.isLt (by decide)
  change (setBit s.imr (gpioOf port line % gpioPortPins)).getLsbD j = _
  rw [gpioOf_mod, setBit_bit hj]
  simp only [Fin.ext_iff]

/-- Disabling clears the mask bit and the trigger bits of its line. -/
theorem disable_spec (s : GpioTrigger) (line j : Fin 16) :
    (s.disable port line).rtsr.getLsbD j = (s.rtsr.getLsbD j && !decide (line = j)) ∧
      (s.disable port line).ftsr.getLsbD j = (s.ftsr.getLsbD j && !decide (line = j)) ∧
      (s.disable port line).imr.getLsbD j = (s.imr.getLsbD j && !decide (line = j)) := by
  have hbit : ∀ x : BitVec 32, (clearBit x (gpioOf port line % gpioPortPins)).getLsbD j =
      (x.getLsbD j && !decide (line = j)) := by
    intro x
    rw [gpioOf_mod, clearBit_bit]
    simp only [Fin.ext_iff]
  exact ⟨hbit _, hbit _, hbit _⟩

theorem update_of_ne_line {β : Type} (f : Nat → β) (v : β) {line j : Fin 16} (h : line ≠ j) :
    Function.update f line v j = f j :=
  Function.update_of_ne (fun he => h (Fin.ext he.symm)) _ _

theorem lineInv_step {a : TriggerAct} (h : ∀ j : Fin 16, LineInv s j)
    (he : triggerStep port s a = some s') (j : Fin 16) : LineInv s' j := by
  cases a with
  | setType line t =>
    cases he
    obtain ⟨hr, hf, -⟩ := @setType_spec port s line j t
    by_cases hj : line = j
    · subst hj
      have hsince : (s.setType port line t).since line = t :: s.since line :=
        Function.update_self _ _ _
      refine ⟨?_, ?_, ?_⟩
      · rw [hr, (h line).rising, hsince, List.any_cons, decide_eq_true rfl, Bool.and_true,
          Bool.or_comm]
      · rw [hf, (h line).falling, hsince, List.any_cons, decide_eq_true rfl, Bool.and_true,
          Bool.or_comm]
      · intro u us hu
        rw [hsince] at hu
        cases hu
        exact Function.update_self _ _ _
    · have hsince : (s.setType port line t).since j = s.since j := update_of_ne_line _ _ hj
      have hlast : (s.setType port line t).last j = s.last j := update_of_ne_line _ _ hj
      rw [decide_eq_false hj, Bool.and_false, Bool.or_false] at hr hf
      refine ⟨by rw [hr, hsince, (h j).rising], by rw [hf, hsince, (h j).falling], ?_⟩
      rw [hsince, hlast]
      exact (h j).last
  | enable line =>
    cases he
    exact ⟨(h j).rising, (h j).falling, (h j).last⟩
  | disable line =>
    cases he
    obtain ⟨hr, hf, -⟩ := @disable_spec port s line j
    by_cases hj : line = j
    · subst hj
      have hsince : (s.disable port line).since line = [] := Function.update_self _ _ _
      rw [decide_eq_true rfl, Bool.not_true, Bool.and_false] at hr hf
      refine ⟨by rw [hr, hsince, List.any_nil], by rw [hf, hsince, List.any_nil], ?_⟩
      intro u us hu
      rw [hsince] at hu
      cases hu
    · have hsince : (s.disable port line).since j = s.since j := update_of_ne_line _ _ hj
      rw [decide_eq_false hj, Bool.not_false, Bool.and_true] at hr hf
      refine ⟨by rw [hr, hsince, (h j).rising], by rw [hf, hsince, (h j).falling], ?_⟩
      rw [hsince]
      exact (h j).last

/-- The bits of types of which the first has every edge are those of the first. -/
theorem any_edges_iff (t : EdgeType) (ts : List EdgeType) :
    (((t :: ts).any EdgeType.rises = t.rises) ∧ (t :: ts).any EdgeType.falls = t.falls) ↔
      ∀ u ∈ ts, u.Within t := by
  simp only [List.any_cons, Bool.or_eq_left_iff_imp, List.any_eq_true, EdgeType.Within]
  constructor
  · rintro ⟨hr, hf⟩ u hu
    exact ⟨fun h => hr ⟨u, hu, h⟩, fun h => hf ⟨u, hu, h⟩⟩
  · intro h
    exact ⟨fun ⟨u, hu, hb⟩ => (h u hu).1 hb, fun ⟨u, hu, hb⟩ => (h u hu).2 hb⟩

/-- A call for one line keeps the match of the others. -/
theorem typesMatch_iff (line : Fin 16) (hmatch : TypesMatch s)
    (hothers : ∀ j : Fin 16, line ≠ j → s'.imr.getLsbD j = s.imr.getLsbD j ∧
      s'.last j = s.last j ∧ s'.rtsr.getLsbD j = s.rtsr.getLsbD j ∧
      s'.ftsr.getLsbD j = s.ftsr.getLsbD j) :
    TypesMatch s' ↔ (s'.imr.getLsbD line = true → ∀ t, s'.last line = some t →
      s'.rtsr.getLsbD line = t.rises ∧ s'.ftsr.getLsbD line = t.falls) := by
  constructor
  · intro h
    exact h line
  · intro h j
    by_cases hj : line = j
    · subst hj
      exact h
    · obtain ⟨hi, hl, hr, hf⟩ := hothers j hj
      rw [hi, hl, hr, hf]
      exact hmatch j

/-- A call leads to matching types exactly if it keeps the condition. -/
theorem typesMatch_step {a : TriggerAct} (hinv : ∀ j : Fin 16, LineInv s j) (hmatch : TypesMatch s)
    (he : triggerStep port s a = some s') : TypesMatch s' ↔ TriggerOk s a := by
  have hinv' := lineInv_step hinv he
  cases a with
  | setType line t =>
    cases he
    have hsince : (s.setType port line t).since line = t :: s.since line :=
      Function.update_self _ _ _
    have hlast : (s.setType port line t).last line = some t := Function.update_self _ _ _
    rw [typesMatch_iff line hmatch]
    · rw [(hinv' line).rising, (hinv' line).falling, hsince, hlast, TriggerOk,
        (@setType_spec port s line line t).2.2]
      constructor
      · intro h himr
        exact (any_edges_iff t _).mp (h himr t rfl)
      · rintro h himr u hu
        cases hu
        exact (any_edges_iff t _).mpr (h himr)
    · intro j hj
      obtain ⟨hr, hf, hi⟩ := @setType_spec port s line j t
      rw [decide_eq_false hj, Bool.and_false, Bool.or_false] at hr hf
      exact ⟨by rw [hi], update_of_ne_line _ _ hj, hr, hf⟩
  | enable line =>
    cases he
    rw [typesMatch_iff line hmatch]
    · rw [(hinv' line).rising, (hinv' line).falling, enable_spec, decide_eq_true rfl, Bool.or_true]
      change (true = true → ∀ t, s.last line = some t →
        (s.since line).any EdgeType.rises = t.rises ∧ (s.since line).any EdgeType.falls = t.falls) ↔
          ∀ t, s.last line = some t → s.since line ≠ [] ∧ ∀ u ∈ s.since line, u.Within t
      rw [forall_prop_of_true rfl]
      apply forall_congr'
      intro t
      apply imp_congr_right
      intro ht
      cases hsince : s.since line with
      | nil =>
        constructor
        · intro h
          cases t with
          | rising => cases h.1
          | falling => cases h.2
          | both => cases h.1
        · intro h
          exact absurd rfl h.1
      | cons u us =>
        have hu := (hinv line).last u us hsince
        rw [ht] at hu
        cases hu
        rw [any_edges_iff]
        constructor
        · intro h
          refine ⟨List.cons_ne_nil t us, List.forall_mem_cons.mpr ⟨⟨id, id⟩, h⟩⟩
        · intro h
          exact (List.forall_mem_cons.mp h.2).2
    · intro j hj
      have hi := @enable_spec port s line j
      rw [decide_eq_false hj, Bool.or_false] at hi
      exact ⟨hi, rfl, rfl, rfl⟩
  | disable line =>
    cases he
    rw [typesMatch_iff line hmatch, TriggerOk, iff_true]
    · intro himr
      rw [(@disable_spec port s line line).2.2, decide_eq_true rfl, Bool.not_true,
        Bool.and_false] at himr
      cases himr
    · intro j hj
      obtain ⟨hr, hf, hi⟩ := @disable_spec port s line j
      rw [decide_eq_false hj, Bool.not_false, Bool.and_true] at hr hf hi
      exact ⟨hi, rfl, hr, hf⟩

end Steps

/-- In every run that keeps the condition the types match, and the next call keeps them matching
exactly if it keeps the condition too. -/
theorem gpio_trigger_types (port : Fin 16 → Fin 9) {s : GpioTrigger}
    (h : (triggerSystem port).Reach TriggerOk s) :
    TypesMatch s ∧
      ∀ a s', triggerStep port s a = some s' → (TypesMatch s' ↔ TriggerOk s a) := by
  have hinv : (∀ j : Fin 16, LineInv s j) ∧ TypesMatch s := by
    apply System.Reach.invariant _ _ h
    · rintro s ⟨⟨-, -, himr, -⟩, hbits, -, hsince⟩
      constructor
      · intro j
        obtain ⟨hr, hf⟩ := hbits j j.isLt
        refine ⟨by rw [hr, hsince, List.any_nil], by rw [hf, hsince, List.any_nil], ?_⟩
        intro t ts ht
        rw [hsince] at ht
        cases ht
      · intro j hj
        rw [himr j j.isLt] at hj
        cases hj
    · intro s a s' hs hok he
      exact ⟨lineInv_step hs.1 he, (typesMatch_step hs.1 hs.2 he).mpr hok⟩
  exact ⟨hinv.2, fun a s' he => typesMatch_step hinv.1 hinv.2 he⟩

/-- The state after `stm32_gpio_init`. -/
def GpioTrigger.start : GpioTrigger where
  toGpioIrq := .start
  last _ := none
  since _ := []

/-- Rising edges are set for `PA3` and it is enabled. -/
theorem gpio_trigger_types_pa3 :
    TypesMatch ((GpioTrigger.start.setType (fun _ => 0) 3 .rising).enable (fun _ => 0) 3) := by
  have h0 : (triggerSystem fun _ => 0).Reach TriggerOk GpioTrigger.start :=
    .init ⟨⟨fun _ => rfl, fun _ => rfl, fun _ _ => BitVec.getLsbD_zero, rfl⟩,
      fun _ _ => ⟨BitVec.getLsbD_zero, BitVec.getLsbD_zero⟩, fun _ => rfl, fun _ => rfl⟩
  have h1 : TriggerOk GpioTrigger.start (.setType 3 .rising) := fun _ u hu => nomatch hu
  apply ((gpio_trigger_types (fun _ => 0) (h0.step h1 rfl)).2 (.enable 3) _ rfl).mpr
  intro t ht
  cases ht
  exact ⟨List.cons_ne_nil _ _, fun u hu => by cases List.mem_singleton.mp hu; exact ⟨id, id⟩⟩

/-- After rising edges were set and then falling ones, `PA3` triggers on both; after it is disabled
and enabled again, on none. -/
theorem gpio_trigger_stale :
    let s := ((GpioTrigger.start.setType (fun _ => 0) 3 .rising).enable (fun _ => 0) 3).setType
      (fun _ => 0) 3 .falling
    let s' := (s.disable (fun _ => 0) 3).enable (fun _ => 0) 3
    (s.imr.getLsbD 3 = true ∧ s.last 3 = some .falling ∧ s.rtsr.getLsbD 3 = true) ∧
      s'.imr.getLsbD 3 = true ∧ s'.last 3 = some .falling ∧ s'.ftsr.getLsbD 3 = false := by
  decide

end LinuxStm32.Mach
