import Mathlib.Data.List.Basic
import Mathlib.Algebra.Order.Ring.Int

/-!
# Messages on the SPI wire

`spi_stm32_xfer_init`, `spi_stm32_xfer_tx_next`, `spi_stm32_xfer_rx_next`, `spi_stm32_irq` and
`spi_stm32_pio_interrupted`, `drivers/spi/spi_stm32.c:699–960`, with the accesses to the data
register, lines 481–538. Every frame that is written to the data register is sent, the slave's
frame of the same number is received, and the interrupt is raised for it, as often as the wait
lasts. A walk that moves past the last transfer has no result. What is sent, received, read from the
buffers and stored to them is recorded and read by no operation.
-/

namespace LinuxStm32.Drivers.Spi

/-- `struct spi_transfer`: the bytes of `tx_buf`, whether there is a `rx_buf`, and the length. -/
structure SpiTransfer where
  txBuf : Option (Nat → UInt8)
  rxBuf : Bool
  len : Nat

/-- A cursor over the transfers: the current one, its frames and the next frame in it. -/
structure SpiCursor where
  t : Nat
  l : Int
  i : Nat
  deriving DecidableEq, Repr

/-- The fields of `struct spi_stm32` for the message, and the record. Positions are a transfer and
a frame in it, accesses a transfer and a byte in its buffer. -/
structure SpiXfer where
  wb : Nat
  len : Int
  tx : SpiCursor
  rx : SpiCursor
  ti : Nat
  ri : Nat
  xferStatus : Int
  sent : List Nat
  txAt : List (Nat × Nat)
  rxAt : List (Nat × Nat)
  accesses : List (Nat × Nat)
  stores : List (Nat × Nat × UInt8)

/-- A word as an `int`. -/
def toInt32 (x : Nat) : Int :=
  if x % 4294967296 < 2147483648 then (x % 4294967296 : Nat)
  else (x % 4294967296 : Nat) - 4294967296

/-- The sum of the lengths. -/
def totalLen (ts : List SpiTransfer) : Nat := (ts.map SpiTransfer.len).sum

/-! ### Frames -/

/-- The bytes of a buffer that make up frame `i`. -/
def frameIndices (wb i : Nat) : List Nat := (List.range wb).map (i * wb + ·)

/-- `spi_stm32_hw_txfifo_put`, `drivers/spi/spi_stm32.c:481`: the frame that is sent. -/
def txFrame (wb i : Nat) (tx : Option (Nat → UInt8)) : Nat :=
  match tx with
  | none => 0
  | some p => (frameIndices wb i).foldl (fun d k => d * 256 + (p k).toNat) 0

/-- The bytes of a frame, the first that is sent first. -/
def frameBytes : Nat → Nat → List UInt8
  | 0, _ => []
  | wb + 1, d => frameBytes wb (d / 256) ++ [UInt8.ofNat (d % 256)]

/-- `spi_stm32_hw_rxfifo_get`, `drivers/spi/spi_stm32.c:524`: what is stored for a frame. -/
def rxStores (wb : Nat) (pos : Nat × Nat) (d : Nat) : List (Nat × Nat × UInt8) :=
  ((frameIndices wb pos.2).zip (frameBytes wb d)).map fun x => (pos.1, x.1, x.2)

namespace SpiXfer

variable (ts : List SpiTransfer)

/-- The transfer of a cursor; the list head has none. -/
def transfer (t : Nat) : SpiTransfer := ts.getD t ⟨none, false, 0⟩

/-- The cursor at the start of a transfer. -/
def cursorAt (wb t : Nat) : SpiCursor := ⟨t, toInt32 ((transfer ts t).len / wb), 0⟩

/-- `spi_stm32_xfer_init`, `drivers/spi/spi_stm32.c:699`. -/
def init (bitsPerWord : Nat) : SpiXfer :=
  let wb := (bitsPerWord + 7) / 8
  { wb := wb
    len := (toInt32 (totalLen ts)).tdiv wb
    tx := cursorAt ts wb 0
    rx := cursorAt ts wb 0
    ti := 0
    ri := 0
    xferStatus := 0
    sent := []
    txAt := []
    rxAt := []
    accesses := []
    stores := [] }

/-- The loop that advances a cursor past finished transfers. -/
def walk (wb : Nat) : Nat → SpiCursor → Option SpiCursor
  | 0, _ => none
  | n + 1, cur =>
    if (cur.i : Int) ≠ cur.l then some cur
    else if cur.t + 1 < ts.length then walk wb n (cursorAt ts wb (cur.t + 1))
    else none

variable (c : SpiXfer)

/-- `spi_stm32_xfer_tx_next`, `drivers/spi/spi_stm32.c:740`. -/
def txNext : Option SpiXfer :=
  (walk ts c.wb ts.length c.tx).map fun cur =>
    let tr := transfer ts cur.t
    { c with
      tx := { cur with i := cur.i + 1 }
      ti := c.ti + 1
      sent := c.sent ++ [txFrame c.wb cur.i tr.txBuf]
      txAt := c.txAt ++ [(cur.t, cur.i)]
      accesses := c.accesses ++
        if tr.txBuf.isSome then (frameIndices c.wb cur.i).map (cur.t, ·) else [] }

/-- `spi_stm32_xfer_rx_next`, `drivers/spi/spi_stm32.c:770`, for a received frame. -/
def rxNext (d : Nat) : Option SpiXfer :=
  (walk ts c.wb ts.length c.rx).map fun cur =>
    let tr := transfer ts cur.t
    { c with
      rx := { cur with i := cur.i + 1 }
      ri := c.ri + 1
      rxAt := c.rxAt ++ [(cur.t, cur.i)]
      accesses := c.accesses ++
        if tr.rxBuf then (frameIndices c.wb cur.i).map (cur.t, ·) else []
      stores := c.stores ++ if tr.rxBuf then rxStores c.wb (cur.t, cur.i) d else [] }

/-- The message is done when the entire transfer has been received. -/
def finish : SpiXfer := if (c.ri : Int) = c.len then { c with xferStatus := 0 } else c

/-- `spi_stm32_irq`, `drivers/spi/spi_stm32.c:873`, with the frame that was received. -/
def irq (d : Nat) : Option SpiXfer :=
  (c.rxNext ts d).bind fun c =>
    if (c.finish.ti : Int) < c.finish.len then c.finish.txNext ts else some c.finish

/-- The interrupts, as long as frames come in; the slave sends `miso`. -/
def serve (miso : Nat → Nat) : Nat → SpiXfer → Option SpiXfer
  | 0, c => some c
  | n + 1, c => if c.ri < c.ti then (c.irq ts (miso c.ri)).bind (serve miso n) else some c

end SpiXfer

open SpiXfer

/-- How the wait ends for a message that is not done: how many interrupts have come, and whether a
signal ends it before the timeout. -/
structure SpiWait where
  interrupts : Nat
  signal : Bool

/-- `spi_stm32_pio_interrupted`, `drivers/spi/spi_stm32.c:918`: its result, `rlen` and the state at
the end of the wait. -/
def pioInterrupted (ts : List SpiTransfer) (bitsPerWord : Nat) (miso : Nat → Nat) (wait : SpiWait) :
    Option (Int × Nat × SpiXfer) :=
  let c := { init ts bitsPerWord with xferStatus := -16 }
  (c.txNext ts).bind fun c =>
    (serve ts miso wait.interrupts c).map fun c =>
      if c.xferStatus = -16 then (if wait.signal then -16 else -110, 0, c)
      else (c.xferStatus, c.ri, c)

/-! ### What a message asks for -/

/-- The data of a transfer; zeros without a `tx_buf`. -/
def SpiTransfer.data (tr : SpiTransfer) : List UInt8 :=
  (List.range tr.len).map fun k => (tr.txBuf.map (· k)).getD 0

/-- The stores for frames received one by one at the given positions. -/
def storesAt (ts : List SpiTransfer) (wb : Nat) (miso : Nat → Nat) (l : List (Nat × Nat)) :
    List (Nat × Nat × UInt8) :=
  l.zipIdx.flatMap fun x =>
    if (transfer ts x.1.1).rxBuf then rxStores wb x.1 (miso x.2) else []

/-- The message is transferred: no walk leaves the list, the frames sent are the data of all
transfers in order, each frame received is stored where the frame of its number was taken from,
every access is inside its transfer, and on success the length that is reported is that of the
bytes transferred. -/
def MessageOk (ts : List SpiTransfer) (bitsPerWord : Nat) (miso : Nat → Nat) (wait : SpiWait) :
    Prop :=
  ∃ ret rlen c, pioInterrupted ts bitsPerWord miso wait = some (ret, rlen, c) ∧
    c.sent.flatMap (frameBytes c.wb) = ts.flatMap SpiTransfer.data ∧
    c.stores = storesAt ts c.wb miso c.txAt ∧
    (∀ a ∈ c.accesses, ∃ tr, ts[a.1]? = some tr ∧ a.2 < tr.len) ∧
    (ret = 0 → rlen = c.wb * c.sent.length)

/-! ### How many frames -/

namespace SpiXfer

variable {ts : List SpiTransfer} {c c' : SpiXfer} {miso : Nat → Nat}

theorem txNext_some (h : c.txNext ts = some c') :
    c'.wb = c.wb ∧ c'.len = c.len ∧ c'.ti = c.ti + 1 ∧ c'.ri = c.ri ∧
      c'.xferStatus = c.xferStatus ∧ c'.sent.length = c.sent.length + 1 := by
  obtain ⟨cur, -, rfl⟩ := Option.map_eq_some_iff.mp h
  refine ⟨rfl, rfl, rfl, rfl, rfl, ?_⟩
  exact List.length_append

theorem rxNext_some {d : Nat} (h : c.rxNext ts d = some c') :
    c'.wb = c.wb ∧ c'.len = c.len ∧ c'.ti = c.ti ∧ c'.ri = c.ri + 1 ∧
      c'.xferStatus = c.xferStatus ∧ c'.sent = c.sent := by
  obtain ⟨cur, -, rfl⟩ := Option.map_eq_some_iff.mp h
  exact ⟨rfl, rfl, rfl, rfl, rfl, rfl⟩

theorem finish_fields (c : SpiXfer) :
    c.finish.wb = c.wb ∧ c.finish.len = c.len ∧ c.finish.ti = c.ti ∧ c.finish.ri = c.ri ∧
      c.finish.sent = c.sent ∧
      c.finish.xferStatus = (if (c.ri : Int) = c.len then 0 else c.xferStatus) := by
  unfold finish
  split
  next => exact ⟨rfl, rfl, rfl, rfl, rfl, rfl⟩
  next => exact ⟨rfl, rfl, rfl, rfl, rfl, rfl⟩

/-- What an interrupt does to the counts: a frame is received, and another one sent while there are
more. -/
theorem irq_some {d : Nat} (h : c.irq ts d = some c') :
    c'.wb = c.wb ∧ c'.len = c.len ∧ c'.ri = c.ri + 1 ∧
      c'.xferStatus = (if ((c.ri + 1 : Nat) : Int) = c.len then 0 else c.xferStatus) ∧
      ((c.ti : Int) < c.len ∧ c'.ti = c.ti + 1 ∧ c'.sent.length = c.sent.length + 1 ∨
        c.len ≤ c.ti ∧ c'.ti = c.ti ∧ c'.sent.length = c.sent.length) := by
  obtain ⟨b, hb, hrest⟩ := Option.bind_eq_some_iff.mp h
  obtain ⟨hwb, hlen, hti, hri, hst, hsent⟩ := rxNext_some hb
  obtain ⟨fwb, flen, fti, fri, fsent, fst⟩ := finish_fields b
  rw [fti, flen, hti, hlen] at hrest
  rw [hri, hlen, hst] at fst
  by_cases hmore : (c.ti : Int) < c.len
  · rw [if_pos hmore] at hrest
    obtain ⟨twb, tlen, tti, tri, tst, tsent⟩ := txNext_some hrest
    refine ⟨by rw [twb, fwb, hwb], by rw [tlen, flen, hlen], by rw [tri, fri, hri],
      tst.trans fst, .inl ⟨hmore, ?_, ?_⟩⟩
    · rw [tti, fti, hti]
    · rw [tsent, fsent, hsent]
  · rw [if_neg hmore] at hrest
    cases hrest
    refine ⟨by rw [fwb, hwb], by rw [flen, hlen], by rw [fri, hri], fst,
      .inr ⟨Int.not_lt.mp hmore, by rw [fti, hti], ?_⟩⟩
    rw [fsent, hsent]

/-- One frame at most is on the wire; frames are sent up to the length, and at least one. -/
structure Counts (c : SpiXfer) : Prop where
  sent : c.sent.length = c.ti
  pos : 1 ≤ c.ti
  le : (c.ti : Int) ≤ max 1 c.len
  received : c.ri ≤ c.ti
  flight : c.ti ≤ c.ri + 1
  rest : c.ri = c.ti → c.len ≤ c.ti
  status : (c.xferStatus = 0 ∧ (c.ri : Int) = c.len ∧ 1 ≤ c.ri) ∨
    (c.xferStatus = -16 ∧ ((c.ri : Int) = c.len → c.ri = 0))

theorem Counts.irq (h : Counts c) (hlt : c.ri < c.ti) {d : Nat} (he : c.irq ts d = some c') :
    Counts c' := by
  obtain ⟨-, hlen, hri, hst, hcase⟩ := irq_some he
  have hflight := h.flight
  have hle := h.le
  have hsent := h.sent
  -- the message is not done while a frame is on the wire
  have hbusy : c.xferStatus = -16 := by
    rcases h.status with hs | hs
    · omega
    · exact hs.1
  rw [hbusy] at hst
  have hstatus : (c'.xferStatus = 0 ∧ (c'.ri : Int) = c'.len ∧ 1 ≤ c'.ri) ∨
      (c'.xferStatus = -16 ∧ ((c'.ri : Int) = c'.len → c'.ri = 0)) := by
    by_cases hdone : ((c.ri + 1 : Nat) : Int) = c.len
    · rw [if_pos hdone] at hst
      left
      omega
    · rw [if_neg hdone] at hst
      right
      omega
  rcases hcase with ⟨hmore, hti, hs⟩ | ⟨hmore, hti, hs⟩
  · exact ⟨by omega, by omega, by omega, by omega, by omega, by omega, hstatus⟩
  · exact ⟨by omega, by omega, by omega, by omega, by omega, by omega, hstatus⟩

/-- The interrupts go on until nothing is on the wire, if the wait is long enough. -/
theorem Counts.serve {n : Nat} (h : Counts c) (he : serve ts miso n c = some c') :
    Counts c' ∧ (c.len.toNat + 1 ≤ n + c.ri → c'.ri = c'.ti) ∧ c'.len = c.len ∧ c'.wb = c.wb := by
  induction n generalizing c with
  | zero =>
    cases he
    have hle := h.le
    have hrec := h.received
    exact ⟨h, fun _ => by omega, rfl, rfl⟩
  | succ n ih =>
    rw [SpiXfer.serve] at he
    by_cases hlt : c.ri < c.ti
    · rw [if_pos hlt] at he
      obtain ⟨b, hb, hrest⟩ := Option.bind_eq_some_iff.mp he
      obtain ⟨hwb, hlen, hri, -, -⟩ := irq_some hb
      obtain ⟨hc, hend, hl, hw⟩ := ih (h.irq hlt hb) hrest
      exact ⟨hc, fun hn => hend (by omega), hl.trans hlen, hw.trans hwb⟩
    · rw [if_neg hlt] at he
      cases he
      have hrec := h.received
      exact ⟨h, fun _ => by omega, rfl, rfl⟩

end SpiXfer

/-- There are at most as many frames as bytes. -/
theorem toNat_tdiv_le (n wb : Nat) : ((toInt32 n).tdiv wb).toNat ≤ n := by
  have hle : toInt32 n ≤ n := by
    unfold toInt32
    split <;> omega
  rcases Int.le_total 0 (toInt32 n) with hpos | hneg
  · have := Int.tdiv_le_self (wb : Int) hpos
    omega
  · have := Int.tdiv_nonneg (Int.neg_nonneg_of_nonpos hneg) (Int.natCast_nonneg wb)
    rw [Int.neg_tdiv] at this
    omega

/-- The counts once the first frame is sent. -/
theorem counts_first {ts : List SpiTransfer} {bits : Nat} {c : SpiXfer}
    (h : ({ SpiXfer.init ts bits with xferStatus := -16 } : SpiXfer).txNext ts = some c) :
    Counts c ∧ c.ri = 0 ∧ c.wb = (bits + 7) / 8 ∧
      c.len = (toInt32 (totalLen ts)).tdiv ((bits + 7) / 8 : Nat) := by
  obtain ⟨hwb, hlen, hti, hri, hst, hsent⟩ := txNext_some h
  have hti1 : c.ti = 1 := hti
  have hri0 : c.ri = 0 := hri
  have hs1 : c.sent.length = 1 := hsent
  have hst16 : c.xferStatus = -16 := hst
  refine ⟨⟨by omega, by omega, by omega, by omega, by omega, by omega, .inr ⟨hst16, ?_⟩⟩, hri0, hwb,
    hlen⟩
  intro _
  exact hri0

/-- Success is reported for a message that is received to the end, however long the wait. -/
theorem pioInterrupted_success {ts : List SpiTransfer} {bits rlen : Nat} {miso : Nat → Nat}
    {wait : SpiWait} {c : SpiXfer} (h : pioInterrupted ts bits miso wait = some (0, rlen, c)) :
    (c.ri : Int) = c.len ∧ rlen = c.ri := by
  obtain ⟨b, hb, hrest⟩ := Option.bind_eq_some_iff.mp h
  obtain ⟨e, hserve, hret⟩ := Option.map_eq_some_iff.mp hrest
  have hstatus := ((counts_first hb).1.serve hserve).1.status
  split at hret
  · split at hret <;> cases hret
  · next hdone =>
    simp only [Prod.mk.injEq] at hret
    obtain ⟨hs, rfl, rfl⟩ := hret
    omega

/-- Within a wait that is long enough, a message with frames is done after all of them; one without
is not done after one. -/
theorem pioInterrupted_counts {ts : List SpiTransfer} {bits rlen : Nat} {miso : Nat → Nat}
    {ret : Int}
    {wait : SpiWait} {c : SpiXfer} (hwait : totalLen ts < wait.interrupts)
    (h : pioInterrupted ts bits miso wait = some (ret, rlen, c)) :
    c.wb = (bits + 7) / 8 ∧ c.len = (toInt32 (totalLen ts)).tdiv ((bits + 7) / 8 : Nat) ∧
      c.sent.length = c.ti ∧ c.ri = c.ti ∧
      ((1 ≤ c.len ∧ (c.ti : Int) = c.len ∧ ret = 0 ∧ rlen = c.ti) ∨
        (c.len ≤ 0 ∧ c.ti = 1 ∧ ret = if wait.signal then -16 else -110)) := by
  obtain ⟨b, hb, hrest⟩ := Option.bind_eq_some_iff.mp h
  obtain ⟨hfirst, hri, hwb, hlen⟩ := counts_first hb
  obtain ⟨e, hserve, hret⟩ := Option.map_eq_some_iff.mp hrest
  obtain ⟨hc, hend, hl, hw⟩ := hfirst.serve hserve
  have hshort : b.len.toNat ≤ totalLen ts := by
    rw [hlen]
    exact toNat_tdiv_le _ _
  have hend := hend (by omega)
  have hle := hc.le
  have hpos := hc.pos
  have hrest := hc.rest hend
  have hstatus := hc.status
  by_cases hbusy : e.xferStatus = -16
  · rw [if_pos hbusy] at hret
    cases hret
    refine ⟨hw.trans hwb, hl.trans hlen, hc.sent, hend, .inr ⟨?_, ?_, rfl⟩⟩ <;> omega
  · rw [if_neg hbusy] at hret
    cases hret
    refine ⟨hw.trans hwb, hl.trans hlen, hc.sent, hend, .inl ?_⟩
    omega

theorem length_frameBytes (wb d : Nat) : (frameBytes wb d).length = wb := by
  induction wb generalizing d with
  | zero => rfl
  | succ wb ih => rw [frameBytes, List.length_append, ih, List.length_singleton]

theorem length_flatMap_frames (wb : Nat) (l : List Nat) :
    (l.flatMap (frameBytes wb)).length = wb * l.length := by
  induction l with
  | nil => rfl
  | cons d l ih =>
    rw [List.flatMap_cons, List.length_append, length_frameBytes, ih, List.length_cons,
      Nat.mul_succ,
      Nat.add_comm]

theorem length_data (ts : List SpiTransfer) :
    (ts.flatMap SpiTransfer.data).length = totalLen ts := by
  induction ts with
  | nil => rfl
  | cons tr ts ih =>
    rw [List.flatMap_cons, List.length_append, ih, SpiTransfer.data, List.length_map,
      List.length_range, totalLen, totalLen, List.map_cons, List.sum_cons]

/-- A message that is transferred has frames of 8 bits and a length from 1 to `2 ^ 31 - 1`. -/
theorem MessageOk.bounds {ts : List SpiTransfer} {bits : Nat} {miso : Nat → Nat} {wait : SpiWait}
    (hbits : bits = 8 ∨ bits = 16) (hwait : totalLen ts < wait.interrupts)
    (h : MessageOk ts bits miso wait) :
    bits = 8 ∧ 0 < totalLen ts ∧ totalLen ts < 2147483648 := by
  obtain ⟨ret, rlen, c, hrun, hsent, -, -, hactual⟩ := h
  obtain ⟨hwb, hlen, hcount, -, hcase⟩ := pioInterrupted_counts hwait hrun
  have hbytes := congrArg List.length hsent
  rw [length_flatMap_frames, length_data, hcount, hwb] at hbytes
  rw [← hbytes] at hlen
  rcases hbits with rfl | rfl
  · rw [show (8 + 7) / 8 = 1 from rfl] at hbytes hlen
    rw [Nat.one_mul, Int.natCast_one, Int.tdiv_one] at *
    unfold toInt32 at hlen
    rcases hcase with hdone | hstuck
    · split at hlen
      · omega
      · omega
    · rw [hstuck.2.1] at hlen
      rw [hlen] at hstuck
      exact absurd hstuck.1 (by decide)
  · rcases hcase with hdone | hstuck
    · have hreport := hactual hdone.2.2.1
      rw [hcount, hwb] at hreport
      omega
    · rw [hstuck.2.1] at hlen
      rw [hlen] at hstuck
      exact absurd hstuck.1 (by decide)

/-! ### Positions -/

/-- The bytes of the transfers before `t`. -/
def before (ts : List SpiTransfer) (t : Nat) : Nat := totalLen (ts.take t)

section Positions

variable {ts : List SpiTransfer}

theorem totalLen_append (l m : List SpiTransfer) :
    totalLen (l ++ m) = totalLen l + totalLen m := by
  rw [totalLen, List.map_append, List.sum_append, totalLen, totalLen]

theorem before_succ {t : Nat} {tr : SpiTransfer} (h : ts[t]? = some tr) :
    before ts (t + 1) = before ts t + tr.len := by
  rw [before, List.take_add_one, h, totalLen_append, before]
  rfl

theorem before_le (t : Nat) : before ts t ≤ totalLen ts := by
  have hsplit := totalLen_append (ts.take t) (ts.drop t)
  rw [List.take_append_drop] at hsplit
  unfold before
  omega

theorem before_mono {t u : Nat} (h : t ≤ u) : before ts t ≤ before ts u := by
  have hle : before (ts.take u) t ≤ totalLen (ts.take u) := before_le t
  rwa [before, List.take_take, Nat.min_eq_left h] at hle

/-- Byte `k` of the message is at a position. -/
def At (ts : List SpiTransfer) (pos : Nat × Nat) (k : Nat) : Prop :=
  ∃ tr, ts[pos.1]? = some tr ∧ pos.2 < tr.len ∧ k = before ts pos.1 + pos.2

theorem At.unique {p q : Nat × Nat} {k : Nat} (hp : At ts p k) (hq : At ts q k) : p = q := by
  obtain ⟨tr, htr, hlt, hk⟩ := hp
  obtain ⟨ur, hur, hlt', hk'⟩ := hq
  have hpn := before_succ htr
  have hqn := before_succ hur
  rcases Nat.lt_trichotomy p.1 q.1 with hlo | heq | hhi
  · have hmono : before ts (p.1 + 1) ≤ before ts q.1 := before_mono hlo
    omega
  · rw [heq] at hk
    exact Prod.ext heq (by omega)
  · have hmono : before ts (q.1 + 1) ≤ before ts p.1 := before_mono hhi
    omega

/-- The datum of a position is the byte of the message there. -/
theorem data_at {t i : Nat} {tr : SpiTransfer} (h : ts[t]? = some tr) (hi : i < tr.len) :
    (ts.flatMap SpiTransfer.data)[before ts t + i]? = some ((tr.txBuf.map (· i)).getD 0) := by
  have hlt : t < ts.length := (List.getElem?_eq_some_iff.mp h).1
  have htr : ts[t] = tr := (List.getElem?_eq_some_iff.mp h).2
  have hsplit : ts = ts.take t ++ tr :: ts.drop (t + 1) := by
    rw [← htr, List.getElem_cons_drop, List.take_append_drop]
  have hdata : tr.data[i]? = some ((tr.txBuf.map (· i)).getD 0) := by
    rw [SpiTransfer.data, List.getElem?_map, List.getElem?_range hi]
    rfl
  have hlen : tr.data.length = tr.len := by
    rw [SpiTransfer.data, List.length_map, List.length_range]
  have hpre := length_data (ts.take t)
  have hflat : ts.flatMap SpiTransfer.data = (ts.take t).flatMap SpiTransfer.data ++
      (tr.data ++ (ts.drop (t + 1)).flatMap SpiTransfer.data) := by
    conv => lhs; rw [hsplit]
    rw [List.flatMap_append, List.flatMap_cons]
  rw [hflat, List.getElem?_append_right (by rw [hpre, before]; omega), hpre, before,
    Nat.add_sub_cancel_left, List.getElem?_append_left (by omega), hdata]

/-- Lists of the positions of the first bytes are equal if they are equally long. -/
theorem positions_unique {l m : List (Nat × Nat)} (hlen : l.length = m.length)
    (hl : ∀ k p, l[k]? = some p → At ts p k) (hm : ∀ k p, m[k]? = some p → At ts p k) : l = m := by
  apply List.ext_getElem hlen
  intro k hk hk'
  exact (hl k _ (List.getElem?_eq_getElem hk)).unique (hm k _ (List.getElem?_eq_getElem hk'))

end Positions

/-! ### Messages of 8-bit frames -/

section Bytes

variable {ts : List SpiTransfer} {c : SpiXfer} {miso : Nat → Nat}

/-- The cursor stands behind the first `n` bytes. -/
def CursorOk (ts : List SpiTransfer) (cur : SpiCursor) (n : Nat) : Prop :=
  ∃ tr, ts[cur.t]? = some tr ∧ cur.l = tr.len ∧ cur.i ≤ tr.len ∧ n = before ts cur.t + cur.i

theorem toInt32_of_lt {x : Nat} (h : x < 2147483648) : toInt32 x = x := by
  unfold toInt32
  rw [Nat.mod_eq_of_lt (by omega), if_pos h]

theorem cursorAt_of_some {t : Nat} {tr : SpiTransfer} (htotal : totalLen ts < 2147483648)
    (h : ts[t]? = some tr) : cursorAt ts 1 t = ⟨t, tr.len, 0⟩ := by
  have hle : before ts (t + 1) ≤ totalLen ts := before_le (t + 1)
  rw [before_succ h] at hle
  have htr : transfer ts t = tr := by
    rw [transfer, List.getD_eq_getElem?_getD, h]
    rfl
  rw [cursorAt, htr, Nat.div_one, toInt32_of_lt (by omega)]

/-- A walk before the end of the message finds the next byte, in this transfer or the next that is
not empty. -/
theorem walk_spec (htotal : totalLen ts < 2147483648) {n fuel : Nat} {cur : SpiCursor}
    (hcur : CursorOk ts cur n) (hn : n < totalLen ts) (hfuel : ts.length ≤ fuel + cur.t) :
    ∃ next, walk ts 1 fuel cur = some next ∧ At ts (next.t, next.i) n ∧
      CursorOk ts { next with i := next.i + 1 } (n + 1) := by
  induction fuel generalizing cur with
  | zero =>
    obtain ⟨tr, htr, -⟩ := hcur
    have hlt := (List.getElem?_eq_some_iff.mp htr).1
    omega
  | succ fuel ih =>
    obtain ⟨tr, htr, hl, hi, hat⟩ := hcur
    rw [walk]
    by_cases hne : (cur.i : Int) ≠ cur.l
    · rw [if_pos hne]
      refine ⟨cur, rfl, ⟨tr, htr, ?_, hat⟩, ⟨tr, htr, hl, ?_, ?_⟩⟩
      · dsimp only
        omega
      · dsimp only
        omega
      · dsimp only
        omega
    · rw [if_neg hne]
      have hnext : n = before ts (cur.t + 1) := by
        rw [before_succ htr]
        omega
      have hmore : cur.t + 1 < ts.length := by
        apply Nat.lt_of_not_le
        intro hend
        rw [before, List.take_of_length_le hend] at hnext
        omega
      rw [if_pos hmore]
      have hsome := List.getElem?_eq_getElem hmore
      rw [cursorAt_of_some htotal hsome]
      exact ih ⟨ts[cur.t + 1], hsome, rfl, Nat.zero_le _, hnext⟩ (by dsimp only; omega)

theorem frameIndices_one (i : Nat) : frameIndices 1 i = [i] := by
  simp [frameIndices]

/-- A frame of 8 bits is the byte it was made of. -/
theorem frameBytes_txFrame (i : Nat) (tx : Option (Nat → UInt8)) :
    frameBytes 1 (txFrame 1 i tx) = [(tx.map (· i)).getD 0] := by
  cases tx with
  | none => rfl
  | some p =>
    have hlt : (p i).toNat < 256 := (p i).toNat_lt
    rw [txFrame, frameIndices_one]
    simp only [List.foldl_cons, List.foldl_nil, frameBytes, List.nil_append, Option.map_some,
      Option.getD_some]
    rw [Nat.zero_mul, Nat.zero_add, Nat.mod_eq_of_lt hlt, UInt8.ofNat_toNat]

/-- What has been sent and received so far is the message up to the counts. -/
structure Content (ts : List SpiTransfer) (miso : Nat → Nat) (c : SpiXfer) : Prop where
  wb : c.wb = 1
  len : c.len = totalLen ts
  tx : CursorOk ts c.tx c.ti
  rx : CursorOk ts c.rx c.ri
  sent : c.sent.flatMap (frameBytes 1) = (ts.flatMap SpiTransfer.data).take c.ti
  txLen : c.txAt.length = c.ti
  txAt : ∀ k p, c.txAt[k]? = some p → At ts p k
  rxLen : c.rxAt.length = c.ri
  rxAt : ∀ k p, c.rxAt[k]? = some p → At ts p k
  stores : c.stores = storesAt ts 1 miso c.rxAt
  accesses : ∀ a ∈ c.accesses, ∃ tr, ts[a.1]? = some tr ∧ a.2 < tr.len

theorem positions_append {l : List (Nat × Nat)} {n : Nat} {pos : Nat × Nat} (hlen : l.length = n)
    (hl : ∀ k p, l[k]? = some p → At ts p k) (hpos : At ts pos n) :
    ∀ k p, (l ++ [pos])[k]? = some p → At ts p k := by
  intro k p hk
  rcases Nat.lt_trichotomy k n with hlt | rfl | hgt
  · rw [List.getElem?_append_left (by omega)] at hk
    exact hl k p hk
  · rw [List.getElem?_append_right (by omega), hlen, Nat.sub_self] at hk
    cases hk
    exact hpos
  · rw [List.getElem?_eq_none (by rw [List.length_append, List.length_singleton]; omega)] at hk
    cases hk

/-- The accesses of one frame are inside its transfer. -/
theorem accesses_append {l : List (Nat × Nat)} {t i n : Nat} (b : Bool)
    (hl : ∀ a ∈ l, ∃ tr, ts[a.1]? = some tr ∧ a.2 < tr.len) (hpos : At ts (t, i) n) :
    ∀ a ∈ l ++ (if b then (frameIndices 1 i).map (t, ·) else []),
      ∃ tr, ts[a.1]? = some tr ∧ a.2 < tr.len := by
  intro a ha
  rcases List.mem_append.mp ha with ha | ha
  · exact hl a ha
  · obtain ⟨tr, htr, hlt, -⟩ := hpos
    cases b with
    | false => cases ha
    | true =>
      rw [if_pos rfl, frameIndices_one] at ha
      cases List.mem_singleton.mp ha
      exact ⟨tr, htr, hlt⟩

theorem Content.txNext (htotal : totalLen ts < 2147483648) (h : Content ts miso c)
    (hmore : c.ti < totalLen ts) : ∃ c', c.txNext ts = some c' ∧ Content ts miso c' := by
  obtain ⟨cur, hwalk, hat, hcur⟩ := walk_spec htotal h.tx hmore (Nat.le_add_right _ _)
  rw [SpiXfer.txNext, h.wb, hwalk]
  refine ⟨_, rfl, ⟨rfl, h.len, hcur, h.rx, ?_, ?_, ?_, h.rxLen, h.rxAt, h.stores, ?_⟩⟩
  · obtain ⟨tr, htr, hlt, hk⟩ := hat
    have hdata := data_at htr hlt
    have htransfer : transfer ts cur.t = tr := by
      rw [transfer, List.getD_eq_getElem?_getD, htr]
      rfl
    dsimp only at hk hdata ⊢
    rw [← hk] at hdata
    rw [List.flatMap_append, h.sent, List.take_add_one, hdata, htransfer]
    simp only [List.flatMap_cons, List.flatMap_nil, List.append_nil, frameBytes_txFrame,
      Option.toList_some]
  · rw [List.length_append, h.txLen, List.length_singleton]
  · exact positions_append h.txLen h.txAt hat
  · exact accesses_append _ h.accesses hat

theorem Content.rxNext (htotal : totalLen ts < 2147483648) (h : Content ts miso c)
    (hmore : c.ri < totalLen ts) :
    ∃ c', c.rxNext ts (miso c.ri) = some c' ∧ Content ts miso c' := by
  obtain ⟨cur, hwalk, hat, hcur⟩ := walk_spec htotal h.rx hmore (Nat.le_add_right _ _)
  rw [SpiXfer.rxNext, h.wb, hwalk]
  refine ⟨_, rfl, ⟨rfl, h.len, h.tx, hcur, h.sent, h.txLen, h.txAt, ?_, ?_, ?_, ?_⟩⟩
  · rw [List.length_append, h.rxLen, List.length_singleton]
  · exact positions_append h.rxLen h.rxAt hat
  · dsimp only
    rw [h.stores, storesAt, storesAt, List.zipIdx_append, List.flatMap_append, h.rxLen]
    simp only [List.zipIdx_cons, List.zipIdx_nil, List.flatMap_cons, List.flatMap_nil,
      List.append_nil, Nat.zero_add]
  · exact accesses_append _ h.accesses hat

theorem Content.finish (h : Content ts miso c) : Content ts miso c.finish := by
  unfold SpiXfer.finish
  split
  next =>
    exact ⟨h.wb, h.len, h.tx, h.rx, h.sent, h.txLen, h.txAt, h.rxLen, h.rxAt, h.stores, h.accesses⟩
  next => exact h

theorem Content.irq (htotal : totalLen ts < 2147483648) (h : Content ts miso c)
    (hmore : c.ri < totalLen ts) : ∃ c', c.irq ts (miso c.ri) = some c' ∧ Content ts miso c' := by
  obtain ⟨b, hb, hcontent⟩ := h.rxNext htotal hmore
  rw [SpiXfer.irq, hb, Option.bind_some]
  by_cases hsend : (b.finish.ti : Int) < b.finish.len
  · rw [if_pos hsend]
    have hlen := hcontent.finish.len
    exact hcontent.finish.txNext htotal (by omega)
  · rw [if_neg hsend]
    exact ⟨b.finish, rfl, hcontent.finish⟩

theorem Content.serve (htotal : totalLen ts < 2147483648) (hpos : 0 < totalLen ts) (n : Nat)
    (h : Content ts miso c) (hcounts : Counts c) :
    ∃ c', serve ts miso n c = some c' ∧ Content ts miso c' := by
  induction n generalizing c with
  | zero => exact ⟨c, rfl, h⟩
  | succ n ih =>
    rw [SpiXfer.serve]
    by_cases hlt : c.ri < c.ti
    · have hle := hcounts.le
      have hlen := h.len
      obtain ⟨b, hb, hcontent⟩ := h.irq htotal (by omega)
      rw [if_pos hlt, hb, Option.bind_some]
      exact ih hcontent (hcounts.irq hlt hb)
    · rw [if_neg hlt]
      exact ⟨c, rfl, h⟩

/-- The state before the first frame. -/
theorem content_init (hpos : 0 < totalLen ts) (htotal : totalLen ts < 2147483648) :
    Content ts miso { SpiXfer.init ts 8 with xferStatus := -16 } := by
  have hne : 0 < ts.length := by
    apply Nat.pos_of_ne_zero
    intro h0
    rw [List.eq_nil_of_length_eq_zero h0] at hpos
    exact absurd hpos (by decide)
  have hfirst := List.getElem?_eq_getElem hne
  have hcur : CursorOk ts (cursorAt ts 1 0) 0 := by
    rw [cursorAt_of_some htotal hfirst]
    exact ⟨ts[0], hfirst, rfl, Nat.zero_le _, rfl⟩
  refine ⟨rfl, ?_, hcur, hcur, rfl, rfl, ?_, rfl, ?_, rfl, ?_⟩
  · change (toInt32 (totalLen ts)).tdiv 1 = _
    rw [Int.tdiv_one, toInt32_of_lt htotal]
  · intro k p hk
    cases hk
  · intro k p hk
    cases hk
  · intro a ha
    cases ha

/-- A message of 8-bit frames with at least one byte is transferred. -/
theorem messageOk_of_bytes {wait : SpiWait} (hpos : 0 < totalLen ts)
    (htotal : totalLen ts < 2147483648) (hwait : totalLen ts < wait.interrupts) :
    MessageOk ts 8 miso wait := by
  have hinit : Content ts miso { SpiXfer.init ts 8 with xferStatus := -16 } :=
    content_init hpos htotal
  obtain ⟨b, hb, hcontent⟩ := hinit.txNext htotal hpos
  obtain ⟨hcounts, -, -, -⟩ := counts_first hb
  obtain ⟨e, he, hend⟩ := hcontent.serve htotal hpos wait.interrupts hcounts
  have hrun : ∃ ret rlen, pioInterrupted ts 8 miso wait = some (ret, rlen, e) := by
    rw [pioInterrupted]
    dsimp only
    rw [hb, Option.bind_some, he, Option.map_some]
    by_cases hbusy : e.xferStatus = -16
    · rw [if_pos hbusy]
      exact ⟨_, _, rfl⟩
    · rw [if_neg hbusy]
      exact ⟨_, _, rfl⟩
  obtain ⟨ret, rlen, hrun⟩ := hrun
  obtain ⟨-, -, hsent, hrecv, hcase⟩ := pioInterrupted_counts hwait hrun
  have hlen := hend.len
  have hall : e.ti = totalLen ts ∧ rlen = e.ti := by omega
  have hsame : e.rxAt = e.txAt := by
    apply positions_unique _ hend.rxAt hend.txAt
    rw [hend.rxLen, hend.txLen, hrecv]
  refine ⟨ret, rlen, e, hrun, ?_, ?_, hend.accesses, fun _ => ?_⟩
  · rw [hend.wb, hend.sent, hall.1, List.take_of_length_le (Nat.le_of_eq (length_data ts))]
  · rw [hend.wb, hend.stores, hsame]
  · rw [hend.wb, hsent, Nat.one_mul]
    exact hall.2

end Bytes

/-- Messages of 8- or 16-bit frames are transferred within a wait that is long enough, whatever the
slave sends, exactly if the frames have 8 bits and there is something to transfer that the driver
can count. -/
theorem spi_message_ok (ts : List SpiTransfer) (bits : Nat) (miso : Nat → Nat) (wait : SpiWait)
    (hbits : bits = 8 ∨ bits = 16) (hwait : totalLen ts < wait.interrupts) :
    MessageOk ts bits miso wait ↔ bits = 8 ∧ 0 < totalLen ts ∧ totalLen ts < 2147483648 := by
  constructor
  · exact MessageOk.bounds hbits hwait
  · rintro ⟨rfl, hpos, htotal⟩
    exact messageOk_of_bytes hpos htotal hwait

/-- Three bytes out, an empty transfer, two bytes in. -/
theorem spi_message_ok_three_two :
    MessageOk [⟨some fun _ => 0x9f, false, 3⟩, ⟨none, false, 0⟩, ⟨none, true, 2⟩] 8 (fun n => n)
      ⟨6, false⟩ :=
  (spi_message_ok _ 8 _ ⟨6, false⟩ (Or.inl rfl) (by decide)).mpr (by decide)

/-- One frame of 16 bits: success with an actual length of one byte of the two. -/
theorem spi_message_counts_frames :
    (pioInterrupted [⟨none, true, 2⟩] 16 (fun _ => 0x1234) ⟨3, false⟩).map
          (fun r => (r.1, r.2.1, r.2.2.ri)) = some (0, 1, 1) ∧
      ¬ MessageOk [⟨none, true, 2⟩] 16 (fun _ => 0x1234) ⟨3, false⟩ := by
  refine ⟨by decide, fun h => ?_⟩
  have hbits := (h.bounds (Or.inr rfl) (by decide)).1
  exact absurd hbits (by decide)

end LinuxStm32.Drivers.Spi
