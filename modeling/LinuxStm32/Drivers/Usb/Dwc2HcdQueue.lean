import LinuxStm32.Base.Field
import Mathlib.Algebra.BigOperators.Intervals
import Mathlib.Algebra.BigOperators.Pi
import Mathlib.Algebra.Order.BigOperators.Group.Finset
import Mathlib.Logic.Function.Basic
import Mathlib.Data.Fintype.Basic

/-!
# The schedules of the DWC2 host controller

`drivers/usb/dwc2/hcd_queue.c:255–738` with `hcd.h:500–565`: adding a queue head (QH) to a schedule,
removing it, and giving it back after a transfer. The microframe scheduler takes time out of
`hsotg->frame_usecs` and notes it in the QH. `u16` fields are natural numbers that are stored
through `u16`. The frame number that `dwc2_hcd_get_frame_number` reads from the controller is an
argument. -/

namespace LinuxStm32.Drivers.Usb

open Base

/-- A value as an `u16` stores it. -/
def u16 (x : Int) : Nat := (x % 65536).toNat

/-- `ENOSPC`. -/
def enospc : Int := 28

/-- `USB_ENDPOINT_XFER_*`. -/
inductive EpType
  | control
  | isoc
  | bulk
  | int
  deriving DecidableEq

/-- `USB_SPEED_*` of a device. -/
inductive DevSpeed
  | low
  | full
  | high
  deriving DecidableEq

/-- The schedules a QH can be in. -/
inductive Sched
  | nonPeriodicSchedInactive
  | nonPeriodicSchedActive
  | periodicSchedInactive
  | periodicSchedReady
  | periodicSchedAssigned
  | periodicSchedQueued
  deriving DecidableEq

instance : Fintype Sched where
  elems := {.nonPeriodicSchedInactive, .nonPeriodicSchedActive, .periodicSchedInactive,
    .periodicSchedReady, .periodicSchedAssigned, .periodicSchedQueued}
  complete l := by cases l <;> decide

/-- The schedule is one of the four periodic ones. -/
def Sched.periodic : Sched → Bool
  | .nonPeriodicSchedInactive | .nonPeriodicSchedActive => false
  | _ => true

/-- `struct dwc2_qh`, what the schedules use of it. -/
structure Qh where
  epType : EpType
  epIsIn : Bool
  maxp : Nat
  devSpeed : DevSpeed
  doSplit : Bool
  usecs : Nat
  interval : Nat
  schedFrame : Nat
  frameUsecs : Nat → Nat
  startSplitFrame : Nat
  qtdList : List Nat

/-- `dwc2_qh_is_non_per`, negated. -/
def Qh.periodic (qh : Qh) : Bool := qh.epType == .int || qh.epType == .isoc

/-- The entries of `struct dwc2_core_params` that are read here. -/
structure CoreParams where
  uframeSched : Bool
  dmaDescEnable : Bool
  maxTransferSize : Nat
  hostChannels : Int

/-- `struct dwc2_hsotg` with the QHs `ι`; `qh_list_entry` is empty if the QH is in no schedule. -/
structure Hsotg (ι : Type) where
  coreParams : CoreParams
  qh : ι → Qh
  sched : Sched → List ι
  /-- `none` is the head of the active list. -/
  nonPeriodicQhPtr : Option ι
  periodicChannels : Int
  nonPeriodicChannels : Int
  periodicUsecs : Nat
  frameUsecs : Nat → Nat
  periodicQhCount : Nat
  gintmsk : BitVec 32

/-! ### The microframe scheduler -/

/-- `max_uframe_usecs`. -/
def maxUframeUsecs (i : Nat) : Nat := [100, 100, 100, 100, 100, 100, 30, 0].getD i 0

/-- `frame_usecs` of the controller and of the QH that is placed. -/
structure Uframes where
  hsotg : Nat → Nat
  qh : Nat → Nat

/-- The loop of `dwc2_find_single_uframe` from `i` on. -/
def findSingleUframe (utime : Nat) : (n i : Nat) → Uframes → Option Nat × Uframes
  | 0, _, f => (none, f)
  | n + 1, i, f =>
    if utime ≤ f.hsotg i then
      (some i, ⟨Function.update f.hsotg i (u16 (f.hsotg i - utime)),
        Function.update f.qh i (u16 (f.qh i + utime))⟩)
    else findSingleUframe utime n (i + 1) f

/-- The loop over `k` of `dwc2_find_multi_uframe`; the flag says whether it returned. -/
def takeUframes : (n k : Nat) → (tLeft : Int) → Uframes → Bool × Uframes
  | 0, _, _, f => (false, f)
  | n + 1, k, tLeft, f =>
    if tLeft - f.hsotg k ≤ 0 then
      (true, ⟨Function.update f.hsotg k (u16 (-(tLeft - f.hsotg k))),
        Function.update f.qh k (u16 (f.qh k + (f.hsotg k + (tLeft - f.hsotg k))))⟩)
    else
      takeUframes n (k + 1) (tLeft - f.hsotg k)
        ⟨Function.update f.hsotg k 0, Function.update f.qh k (u16 (f.qh k + f.hsotg k))⟩

/-- The loop over `j` of `dwc2_find_multi_uframe` for the start slot `i`. -/
def findFromUframe (utime i : Nat) : (n j xtime : Nat) → Uframes → Bool × Uframes
  | 0, _, _, f => (false, f)
  | n + 1, j, xtime, f =>
    if xtime + f.hsotg j < utime ∧ f.hsotg j < maxUframeUsecs j then
      findFromUframe utime i n (j + 1) xtime f
    else
      let r := if utime ≤ xtime then takeUframes (8 - i) i utime f else (false, f)
      if r.1 then r
      else findFromUframe utime i n (j + 1) (u16 (xtime + r.2.hsotg j)) r.2

/-- The loop over `i` of `dwc2_find_multi_uframe`. -/
def findMultiUframe (utime : Nat) : (n i : Nat) → Uframes → Option Nat × Uframes
  | 0, _, f => (none, f)
  | n + 1, i, f =>
    if f.hsotg i ≤ 0 then findMultiUframe utime n (i + 1) f
    else
      let r := findFromUframe utime i n (i + 1) (f.hsotg i) f
      if r.1 then (some i, r.2) else findMultiUframe utime n (i + 1) r.2

/-- The slot that `dwc2_find_uframe` returns; `none` is `-ENOSPC`. -/
def findUframe (devSpeed : DevSpeed) (usecs : Nat) (f : Uframes) : Option Nat × Uframes :=
  if devSpeed = .high then findSingleUframe usecs 8 0 f else findMultiUframe usecs 8 0 f

/-! ### The schedules -/

/-- `dwc2_frame_num_inc`. -/
def frameNumInc (frame inc : Nat) : Nat := (frame + inc) % 0x4000

/-- `dwc2_frame_num_le`. -/
def frameNumLe (frame1 frame2 : Nat) : Bool := ((frame2 : Int) - frame1) % 0x4000 ≤ 0x1fff

/-- `dwc2_max_packet`. -/
def maxPacket (maxp : Nat) : Nat := maxp &&& 0x7ff

/-- `dwc2_hb_mult`. -/
def hbMult (maxp : Nat) : Nat := 1 + ((maxp >>> 11) &&& 0x3)

/-- The position of `GINTSTS_SOF`. -/
def sofBit : Nat := 3

namespace Hsotg

variable {ι : Type} [DecidableEq ι]

/-- The QH is in a schedule: `!list_empty(&qh->qh_list_entry)`. -/
def Listed (s : Hsotg ι) (q : ι) : Prop := ∃ l, q ∈ s.sched l

instance (s : Hsotg ι) (q : ι) : Decidable (s.Listed q) :=
  inferInstanceAs (Decidable (∃ l, q ∈ s.sched l))

/-- Store a QH. -/
def setQh (s : Hsotg ι) (q : ι) (qh : Qh) : Hsotg ι := { s with qh := Function.update s.qh q qh }

/-- `list_add_tail`. -/
def listAddTail (s : Hsotg ι) (q : ι) (l : Sched) : Hsotg ι :=
  { s with sched := Function.update s.sched l (s.sched l ++ [q]) }

/-- `list_del_init`. -/
def listDelInit (s : Hsotg ι) (q : ι) : Hsotg ι :=
  { s with sched := fun l => (s.sched l).filter (· ≠ q) }

/-- `list_move`: also an entry that is in no list is put at the front. -/
def listMove (s : Hsotg ι) (q : ι) (l : Sched) : Hsotg ι :=
  let s := s.listDelInit q
  { s with sched := Function.update s.sched l (q :: s.sched l) }

/-- The entry after `q` in the active list; `none` is the head. -/
def nextNonPeriodic (s : Hsotg ι) (q : ι) : Option ι :=
  ((s.sched .nonPeriodicSchedActive).dropWhile (· ≠ q)).tail.head?

/-- `dwc2_periodic_channel_available`. -/
def periodicChannelAvailable (s : Hsotg ι) : Int :=
  if s.periodicChannels + s.nonPeriodicChannels < s.coreParams.hostChannels ∧
      s.periodicChannels < s.coreParams.hostChannels - 1 then 0
  else -enospc

/-- `dwc2_check_periodic_bandwidth`; `max_claimed_usecs` is an `s16`. -/
def checkPeriodicBandwidth (s : Hsotg ι) (q : ι) : Int :=
  let qh := s.qh q
  let maxClaimedUsecs :=
    if qh.devSpeed = .high ∨ qh.doSplit then Int.bmod (100 - qh.usecs) 65536
    else Int.bmod (900 - qh.usecs) 65536
  if maxClaimedUsecs < s.periodicUsecs then -enospc else 0

/-- `dwc2_check_max_xfer_size`. -/
def checkMaxXferSize (s : Hsotg ι) (q : ι) : Int :=
  if s.coreParams.maxTransferSize < maxPacket (s.qh q).maxp * hbMult (s.qh q).maxp then -enospc
  else 0

/-- `dwc2_find_uframe` and what `dwc2_schedule_periodic` does with the slot. -/
def claimUframe (s : Hsotg ι) (q : ι) : Int × Hsotg ι :=
  let qh := s.qh q
  let r := findUframe qh.devSpeed qh.usecs ⟨s.frameUsecs, qh.frameUsecs⟩
  let s := { s with frameUsecs := r.2.hsotg }
  let qh := { qh with frameUsecs := r.2.qh }
  match r.1 with
  | none => (-enospc, s.setQh q qh)
  | some i =>
    let frame := if i = 0 then 7 else i - 1
    (0, s.setQh q { qh with schedFrame := (qh.schedFrame &&& 0xfff8) ||| (frame &&& 7) })

/-- `dwc2_schedule_periodic`. -/
def schedulePeriodic (s : Hsotg ι) (q : ι) : Int × Hsotg ι :=
  let r : Int × Hsotg ι :=
    if s.coreParams.uframeSched then s.claimUframe q
    else if s.periodicChannelAvailable ≠ 0 then (s.periodicChannelAvailable, s)
    else (s.checkPeriodicBandwidth q, s)
  if r.1 ≠ 0 then r
  else
    let s := r.2
    if s.checkMaxXferSize q ≠ 0 then (s.checkMaxXferSize q, s)
    else
      let s := s.listAddTail q
        (if s.coreParams.dmaDescEnable then .periodicSchedReady else .periodicSchedInactive)
      let s := if s.coreParams.uframeSched then s
        else { s with periodicChannels := s.periodicChannels + 1 }
      (0, { s with periodicUsecs := u16 (s.periodicUsecs + (s.qh q).usecs) })

/-- `dwc2_deschedule_periodic`. -/
def deschedulePeriodic (s : Hsotg ι) (q : ι) : Hsotg ι :=
  let s := s.listDelInit q
  let s := { s with periodicUsecs := u16 (s.periodicUsecs - (s.qh q).usecs) }
  if s.coreParams.uframeSched then
    let qh := s.qh q
    let s := { s with frameUsecs := fun i =>
      if i < 8 then u16 (s.frameUsecs i + qh.frameUsecs i) else s.frameUsecs i }
    s.setQh q { qh with frameUsecs := fun i => if i < 8 then 0 else qh.frameUsecs i }
  else { s with periodicChannels := s.periodicChannels - 1 }

/-- `dwc2_hcd_qh_add`. -/
def qhAdd (s : Hsotg ι) (q : ι) : Int × Hsotg ι :=
  if s.Listed q then (0, s)
  else if (s.qh q).periodic = false then (0, s.listAddTail q .nonPeriodicSchedInactive)
  else
    let r := s.schedulePeriodic q
    if r.1 ≠ 0 then r
    else
      let s := r.2
      let s := if s.periodicQhCount = 0 then { s with gintmsk := setBit s.gintmsk sofBit } else s
      (0, { s with periodicQhCount := u16 (s.periodicQhCount + 1) })

/-- `dwc2_hcd_qh_unlink`. -/
def qhUnlink (s : Hsotg ι) (q : ι) : Hsotg ι :=
  if ¬ s.Listed q then s
  else if (s.qh q).periodic = false then
    let s := if s.nonPeriodicQhPtr = some q then { s with nonPeriodicQhPtr := s.nextNonPeriodic q }
      else s
    s.listDelInit q
  else
    let s := s.deschedulePeriodic q
    let s := { s with periodicQhCount := u16 (s.periodicQhCount - 1) }
    if s.periodicQhCount = 0 then { s with gintmsk := clearBit s.gintmsk sofBit } else s

end Hsotg

/-- `dwc2_sched_periodic_split`. -/
def Qh.schedPeriodicSplit (qh : Qh) (frameNumber : Nat) (schedNextPeriodicSplit : Bool) : Qh :=
  if schedNextPeriodicSplit then
    let incr := frameNumInc qh.startSplitFrame 1
    if frameNumLe frameNumber incr ∧ (qh.epType ≠ .isoc ∨ qh.epIsIn) then
      { qh with schedFrame := frameNumInc frameNumber 1 }
    else { qh with schedFrame := frameNumber }
  else
    let schedFrame := frameNumInc qh.startSplitFrame qh.interval
    let schedFrame := (if frameNumLe schedFrame frameNumber then frameNumber else schedFrame) ||| 7
    { qh with
      schedFrame := schedFrame
      startSplitFrame := schedFrame }

/-- The next frame of a periodic QH, as `dwc2_hcd_qh_deactivate` computes it. -/
def Qh.nextFrame (qh : Qh) (frameNumber : Nat) (schedNextPeriodicSplit : Bool) : Qh :=
  if qh.doSplit then qh.schedPeriodicSplit frameNumber schedNextPeriodicSplit
  else
    let schedFrame := frameNumInc qh.schedFrame qh.interval
    { qh with schedFrame := if frameNumLe schedFrame frameNumber then frameNumber else schedFrame }

namespace Hsotg

variable {ι : Type} [DecidableEq ι]

/-- `dwc2_hcd_qh_deactivate`. -/
def qhDeactivate (s : Hsotg ι) (q : ι) (schedNextPeriodicSplit : Bool) (frameNumber : Nat) :
    Hsotg ι :=
  if (s.qh q).periodic = false then
    let s := s.qhUnlink q
    if (s.qh q).qtdList = [] then s else (s.qhAdd q).2
  else
    let s := s.setQh q ((s.qh q).nextFrame frameNumber schedNextPeriodicSplit)
    if (s.qh q).qtdList = [] then s.qhUnlink q
    else if (s.coreParams.uframeSched ∧ frameNumLe (s.qh q).schedFrame frameNumber) ∨
        (¬ s.coreParams.uframeSched ∧ (s.qh q).schedFrame = frameNumber) then
      s.listMove q .periodicSchedReady
    else s.listMove q .periodicSchedInactive

end Hsotg
end LinuxStm32.Drivers.Usb
