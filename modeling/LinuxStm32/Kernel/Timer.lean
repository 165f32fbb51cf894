import LinuxStm32.Base.System
import Mathlib.Logic.Function.Basic
import Mathlib.Algebra.Order.Ring.Int

/-!
# Kernel timers

Model of `internal_add_timer` (`kernel/timer.c` 330–370), `__mod_timer`, `mod_timer` and
`add_timer` (633–792), `del_timer` (839–859), `cascade` and `__run_timers` (936–1043) on one
processor, with 32-bit `jiffies`, 256 slots in `tv1` and 64 in each of `tv2` to `tv5`. The lock of
the base is held in `__run_timers` except while a timer's function runs, so that other calls come
outside of `__run_timers` or while a function runs, from the function or from an interrupt.

Left out are `next_timer`, which only the tickless idle code reads, the deferrable flag, the
statistics, and `running_timer`, which is only used with more than one processor. The clamp of
`idx` to 32 bits cannot apply to a 32-bit `unsigned long`.
-/

namespace LinuxStm32.Kernel

open Base

/-- `TVR_BITS`. -/
def tvrBits : Nat := 8

/-- `TVN_BITS`. -/
def tvnBits : Nat := 6

/-- `x & TVR_MASK`. -/
def tvrIndex (x : BitVec 32) : Nat := (x &&& 255#32).toNat

/-- `(x >> (TVR_BITS + n * TVN_BITS)) & TVN_MASK`; for `timer_jiffies` this is `INDEX(n)`. -/
def tvnIndex (x : BitVec 32) (n : Nat) : Nat := ((x >>> (tvrBits + n * tvnBits)) &&& 63#32).toNat

/-- `time_after_eq`. -/
def timeAfterEq (a b : BitVec 32) : Bool := 0 ≤ (a - b).toInt

/-- The list that `internal_add_timer` chooses: 0 stands for `tv1` to 4 for `tv5`, with the index
in `vec`. -/
def timerSlot (timerJiffies expires : BitVec 32) : Nat × Nat :=
  let idx := expires - timerJiffies
  if idx.toNat < 2 ^ tvrBits then (0, tvrIndex expires)
  else if idx.toNat < 2 ^ (tvrBits + tvnBits) then (1, tvnIndex expires 0)
  else if idx.toNat < 2 ^ (tvrBits + 2 * tvnBits) then (2, tvnIndex expires 1)
  else if idx.toNat < 2 ^ (tvrBits + 3 * tvnBits) then (3, tvnIndex expires 2)
  else if idx.toInt < 0 then (0, tvrIndex timerJiffies)
  else (4, tvnIndex expires 3)

/-- Where the processor is: outside of `__run_timers`, in it with the lock held, or in the function
of a timer. -/
inductive RunPc where
  | out
  | locked
  | callback
  deriving DecidableEq, Repr

/-- `jiffies`, the base, `work_list` of `__run_timers`, and the `expires` and `entry` fields of the
timers; `vec n i` is the list `vec[i]` of `tv1` to `tv5`. -/
structure Timers (τ : Type) where
  jiffies : BitVec 32
  timerJiffies : BitVec 32
  vec : Nat → Nat → List τ
  workList : List τ
  expires : τ → BitVec 32
  pending : τ → Bool
  pc : RunPc

namespace Timers

variable {τ : Type} [DecidableEq τ]

/-- `detach_timer`: the timer is unlinked from the list that it is in. -/
def detachTimer (s : Timers τ) (t : τ) (clearPending : Bool) : Timers τ :=
  { s with
    vec := fun n i => (s.vec n i).erase t
    workList := s.workList.erase t
    pending := if clearPending then Function.update s.pending t false else s.pending }

/-- `list_add_tail`. -/
def addTail (s : Timers τ) (slot : Nat × Nat) (t : τ) : Timers τ :=
  { s with
    vec := fun n i => if (n, i) = slot then s.vec n i ++ [t] else s.vec n i
    pending := Function.update s.pending t true }

/-- `internal_add_timer`. -/
def internalAddTimer (s : Timers τ) (t : τ) : Timers τ :=
  s.addTail (timerSlot s.timerJiffies (s.expires t)) t

/-- `__mod_timer`, without `pending_only`. -/
def modTimerLocked (s : Timers τ) (t : τ) (expires : BitVec 32) : Nat × Timers τ :=
  let ret := if s.pending t then 1 else 0
  let s := if s.pending t then s.detachTimer t false else s
  (ret, { s with expires := Function.update s.expires t expires }.internalAddTimer t)

/-- `mod_timer`. -/
def modTimer (s : Timers τ) (t : τ) (expires : BitVec 32) : Nat × Timers τ :=
  if s.pending t && s.expires t = expires then (1, s) else s.modTimerLocked t expires

/-- `add_timer` of a timer whose `expires` the caller has set; `none` is the `BUG_ON`. -/
def addTimer (s : Timers τ) (t : τ) (expires : BitVec 32) : Option (Timers τ) :=
  if s.pending t then none
  else some ({ s with expires := Function.update s.expires t expires }.modTimer t expires).2

/-- `del_timer`. -/
def delTimer (s : Timers τ) (t : τ) : Nat × Timers τ :=
  if s.pending t then (1, s.detachTimer t true) else (0, s)

/-- `list_replace_init`: the list is emptied. -/
def clear (s : Timers τ) (slot : Nat × Nat) : Timers τ :=
  { s with vec := fun n i => if (n, i) = slot then [] else s.vec n i }

/-- `cascade`: the timers of the list are added again. -/
def cascade (s : Timers τ) (n index : Nat) : Timers τ :=
  (s.vec n index).foldl internalAddTimer (s.clear (n, index))

/-- "Cascade timers", which goes on to the next level while the index is 0. -/
def cascadeTimers (s : Timers τ) : Timers τ :=
  if tvrIndex s.timerJiffies ≠ 0 then s
  else
    let s := s.cascade 1 (tvnIndex s.timerJiffies 0)
    if tvnIndex s.timerJiffies 0 ≠ 0 then s
    else
      let s := s.cascade 2 (tvnIndex s.timerJiffies 1)
      if tvnIndex s.timerJiffies 1 ≠ 0 then s
      else
        let s := s.cascade 3 (tvnIndex s.timerJiffies 2)
        if tvnIndex s.timerJiffies 2 ≠ 0 then s
        else s.cascade 4 (tvnIndex s.timerJiffies 3)

/-- The beginning of one iteration of `__run_timers`, up to the loop over `work_list`. -/
def iterate (s : Timers τ) : Timers τ :=
  let index := tvrIndex s.timerJiffies
  let s := s.cascadeTimers
  { s.clear (0, index) with
    timerJiffies := s.timerJiffies + 1#32
    workList := s.vec 0 index }

end Timers

/-- What can happen: the clock advances, a timer is added, modified or deleted, and the steps of
`__run_timers`. -/
inductive TimerAct (τ : Type) where
  | advance (n : BitVec 32)
  | addTimer (t : τ) (expires : BitVec 32)
  | modTimer (t : τ) (expires : BitVec 32)
  | delTimer (t : τ)
  | runTimers
  | iterate
  | call
  | ret
  | leave
  deriving DecidableEq, Repr

variable {τ : Type} [DecidableEq τ]

/-- One step; `none` if it cannot happen in the state. -/
def timerStep (s : Timers τ) : TimerAct τ → Option (Timers τ)
  | .advance n => some { s with jiffies := s.jiffies + n }
  | .addTimer t expires => if s.pc = .locked then none else s.addTimer t expires
  | .modTimer t expires => if s.pc = .locked then none else some (s.modTimer t expires).2
  | .delTimer t => if s.pc = .locked then none else some (s.delTimer t).2
  | .runTimers => if s.pc = .out then some { s with pc := .locked } else none
  | .iterate =>
    if s.pc = .locked ∧ s.workList = [] ∧ timeAfterEq s.jiffies s.timerJiffies then
      some s.iterate
    else none
  | .call =>
    -- the first timer of `work_list` is detached and its function called without the lock
    match s.workList with
    | [] => none
    | t :: _ =>
      if s.pc = .locked then some { s.detachTimer t true with pc := .callback } else none
  | .ret => if s.pc = .callback then some { s with pc := .locked } else none
  | .leave =>
    if s.pc = .locked ∧ s.workList = [] ∧ ¬ timeAfterEq s.jiffies s.timerJiffies then
      some { s with pc := .out }
    else none

/-- `init_timers_cpu` (`kernel/timer.c` 1511–1571): the lists are empty, and no timer is queued. -/
def timerInit (s : Timers τ) : Prop :=
  s.timerJiffies = s.jiffies ∧ (∀ n i, s.vec n i = []) ∧ s.workList = [] ∧
    (∀ t, s.pending t = false) ∧ s.pc = .out

/-- The timers of the processor. -/
def timerSystem (τ : Type) [DecidableEq τ] : System (Timers τ) (TimerAct τ) :=
  ⟨timerInit, timerStep⟩

end LinuxStm32.Kernel
