import LinuxStm32.Drivers.Serial.UsartRx

/-!
# The USART delivers what it received

Byte `k` goes to buffer `k / 512 % 2` at position `k % 512`, and the reader has delivered
`512 * turn + rpos` bytes. `SampleOk` says what a handler knows of the stream at each point;
it holds in every run and gives order and absence of duplicates. Completeness needs the two
acknowledgements of the source to fall where they lose no event, which `AckOk` states.
-/

namespace LinuxStm32.Drivers.Serial

open Base

namespace UsartRx

/-- Bytes delivered by a reader at position `rpos` of its buffer. -/
def delivered (s : UsartRx) : Nat := 512 * s.turn + s.rpos

/-- The stream's registers follow from the number of bytes received, and the buffers hold
every byte from the reader's buffer on. -/
structure StreamOk (s : UsartRx) : Prop where
  ct : s.ct = s.rx.length / 512 % 2
  ndtr : s.ndtr = 512 - s.rx.length % 512
  behind : s.turn ≤ s.rx.length / 512
  ahead : s.rx.length / 512 ≤ s.turn + 1
  stored : ∀ k c, 512 * s.turn ≤ k → s.rx[k]? = some c → s.rxb (k / 512 % 2) (k % 512) = c

/-- The reader has delivered a prefix, up to its position in its buffer. -/
structure ReaderOk (s : UsartRx) : Prop where
  rbuf : s.rbuf = s.turn % 2
  wbuf : s.wbuf = s.rbuf
  rpos : s.rpos ≤ 512
  le : s.delivered ≤ s.rx.length
  tty : s.tty = s.rx.take s.delivered

/-- What the running handler knows: once it has seen the next buffer the stream is there,
and its sample is the stream's position at its last read of `NDTR`. -/
def SampleOk (s : UsartRx) : Prop :=
  match s.pc with
  | .none | .readCt _ => True
  | .readNdtr _ newWbuf =>
    newWbuf = s.turn % 2 ∨ newWbuf = (s.turn + 1) % 2 ∧ s.rx.length / 512 = s.turn + 1
  | .checkCt _ newWbuf newWpos =>
    (newWbuf = s.turn % 2 ∨ newWbuf = (s.turn + 1) % 2 ∧ s.seen / 512 = s.turn + 1) ∧
      newWpos = 512 - s.seen % 512 ∧ s.delivered ≤ s.seen ∧ s.seen ≤ s.rx.length
  | .rereadNdtr _ newWbuf => newWbuf = (s.turn + 1) % 2 ∧ s.rx.length / 512 = s.turn + 1
  | .update _ newWbuf newWpos =>
    newWbuf = s.seen / 512 % 2 ∧ newWpos = 512 - s.seen % 512 ∧ s.delivered ≤ s.seen ∧
      s.seen ≤ s.rx.length
  | .fetch _ wrap =>
    s.rpos ≤ s.wpos ∧ s.wpos ≤ 512 ∧ 512 * s.turn + s.wpos ≤ s.rx.length ∧
      if wrap then s.wpos = 512 else 512 * s.turn + s.wpos = s.seen
  | .readIsr _ | .writeIfcr _ _ _ => s.delivered = s.seen
  | .clearIdle => s.delivered = s.seen ∨ s.rpos = 512

/-- Everything that holds in every run. -/
structure Inv (s : UsartRx) : Prop where
  stream : s.StreamOk
  reader : s.ReaderOk
  sample : s.SampleOk

variable {s s' : UsartRx}

/-- The state a started driver is in. -/
theorem Started.inv (h : s.Started) : s.Inv := by
  obtain ⟨hct, hnd, -, -, -, -, hwb, -, hrb, hrp, hpc, htty, hrx, -, ht⟩ := h
  refine ⟨⟨?_, ?_, ?_, ?_, ?_⟩, ⟨?_, ?_, ?_, ?_, ?_⟩, ?_⟩
  · rw [hct, hrx]
    rfl
  · rw [hnd, hrx]
    rfl
  · rw [ht]
    exact Nat.zero_le _
  · rw [hrx]
    exact Nat.zero_le _
  · intro k c _ hc
    rw [hrx] at hc
    cases hc
  · rw [hrb, ht]
  · rw [hwb, hrb]
  · rw [hrp]
    exact Nat.zero_le _
  · rw [delivered, hrp, ht]
    exact Nat.zero_le _
  · rw [htty, hrx, List.take_nil]
  · simp only [SampleOk, hpc]

/-- A byte lands where the invariant says and over a byte the reader has left behind. -/
theorem Inv.byte {c : UInt8} (hi : s.Inv) (h : dmaByte c s = some s') :
    s'.Inv := by
  obtain ⟨hs, hr, hp⟩ := hi
  have hct := hs.ct
  have hnd := hs.ndtr
  have hbe := hs.behind
  have hah := hs.ahead
  have hrb := hr.rbuf
  unfold dmaByte at h
  split at h
  · cases h
  · next hno =>
    cases h
    have hlen : (s.rx ++ [c]).length = s.rx.length + 1 := by simp
    have hnext : (s.rx.length + 1) / 512 ≤ s.turn + 1 := by omega
    refine ⟨⟨?_, ?_, ?_, ?_, ?_⟩, ⟨hr.rbuf, hr.wbuf, hr.rpos, ?_, ?_⟩, ?_⟩
    · dsimp only
      rw [hlen]
      split <;> omega
    · dsimp only
      rw [hlen]
      simp only [rxBufLen]
      split <;> omega
    · dsimp only
      rw [hlen]
      omega
    · dsimp only
      rw [hlen]
      omega
    · intro k d hk hd
      dsimp only at hk hd ⊢
      rw [List.getElem?_append] at hd
      split at hd
      · next hlt =>
        have hne : ¬ (k / 512 % 2 = s.ct ∧ k % 512 = rxBufLen - s.ndtr) := by
          simp only [rxBufLen]
          omega
        rw [if_neg hne]
        exact hs.stored k d hk hd
      · next hge =>
        rw [List.getElem?_singleton] at hd
        split at hd
        · next hz =>
          cases hd
          have hke : k = s.rx.length := by omega
          rw [if_pos]
          simp only [rxBufLen]
          omega
        · cases hd
    · have hle := hr.le
      simp only [delivered] at hle ⊢
      rw [hlen]
      omega
    · have htty := hr.tty
      have hle := hr.le
      simp only [delivered] at hle htty ⊢
      rw [List.take_append_of_le_length hle]
      exact htty
    · simp only [SampleOk, delivered] at hp ⊢
      rw [hlen]
      split at hp
      case h_7 => exact ⟨hp.1, hp.2.1, by omega, hp.2.2.2⟩
      all_goals omega

/-- Moving a handler on changes neither the stream nor the reader. -/
private theorem Inv.move {pc : RxPc} {idle htif tcif lineIdle : Bool} {seen : Nat}
    (hi : s.Inv) (hp : SampleOk { s with pc, idle, htif, tcif, lineIdle, seen }) :
    Inv { s with pc, idle, htif, tcif, lineIdle, seen } := by
  obtain ⟨hs, hr, -⟩ := hi
  exact ⟨⟨hs.ct, hs.ndtr, hs.behind, hs.ahead, hs.stored⟩,
    ⟨hr.rbuf, hr.wbuf, hr.rpos, hr.le, hr.tty⟩, hp⟩

/-- One character goes from the reader's buffer to the tty. -/
private theorem Inv.deliver (hi : s.Inv) {usart wrap : Bool}
    (hpc : s.pc = .fetch usart wrap) (hlt : s.rpos < s.wpos) :
    Inv { s with tty := s.tty ++ [s.rxb s.rbuf s.rpos], rpos := s.rpos + 1 } := by
  obtain ⟨hs, hr, hp⟩ := hi
  simp only [SampleOk, hpc] at hp
  obtain ⟨-, hw, hle, hwrap⟩ := hp
  have hk : 512 * s.turn + s.rpos < s.rx.length := by omega
  have hc : s.rxb s.rbuf s.rpos = s.rx[512 * s.turn + s.rpos] := by
    have hst := hs.stored _ _ (Nat.le_add_right _ _) (List.getElem?_eq_getElem hk)
    have hb : (512 * s.turn + s.rpos) / 512 % 2 = s.rbuf := by
      rw [hr.rbuf]
      omega
    have hpos : (512 * s.turn + s.rpos) % 512 = s.rpos := by omega
    rw [hb, hpos] at hst
    exact hst
  refine ⟨⟨hs.ct, hs.ndtr, hs.behind, hs.ahead, hs.stored⟩,
    ⟨hr.rbuf, hr.wbuf, ?_, ?_, ?_⟩, ?_⟩
  · dsimp only
    omega
  · simp only [delivered]
    omega
  · have htty := hr.tty
    simp only [delivered] at htty ⊢
    rw [hc, htty, ← Nat.add_assoc, List.take_append_getElem hk]
  · simp only [SampleOk, hpc]
    exact ⟨hlt, hw, hle, hwrap⟩

/-- A sample of the reader's own buffer, or of the next one, moves the reader as it should. -/
private theorem Inv.update (hi : s.Inv) {usart : Bool} {newWbuf newWpos : Nat}
    (hpc : s.pc = .update usart newWbuf newWpos) : (rxUpdate usart newWbuf newWpos s).Inv := by
  obtain ⟨hs, hr, hp⟩ := hi
  simp only [SampleOk, hpc] at hp
  obtain ⟨hwb, hwp, hle, hseen⟩ := hp
  have hrb := hr.rbuf
  have hw := hr.wbuf
  have hrp := hr.rpos
  have hbe := hs.behind
  have hah := hs.ahead
  simp only [delivered] at hle
  unfold rxUpdate
  dsimp only
  split
  · next hsame =>
    have hturn : s.seen / 512 = s.turn := by omega
    refine ⟨⟨hs.ct, hs.ndtr, hs.behind, hs.ahead, hs.stored⟩,
      ⟨hr.rbuf, hr.wbuf, hr.rpos, hr.le, hr.tty⟩, ?_⟩
    simp only [SampleOk, rxBufLen, Bool.false_eq_true, ↓reduceIte]
    omega
  · next hdiff =>
    have hturn : s.seen / 512 = s.turn + 1 := by omega
    split
    · next hfull =>
      simp only [rxBufLen] at hfull
      refine ⟨⟨hs.ct, hs.ndtr, ?_, ?_, fun k c hk => hs.stored k c ?_⟩, ⟨?_, rfl, ?_, ?_, ?_⟩, ?_⟩
      · dsimp only
        omega
      · dsimp only
        omega
      · dsimp only at hk
        omega
      · dsimp only
        rw [hwb, hturn]
      · exact Nat.zero_le _
      · simp only [delivered]
        omega
      · have htty := hr.tty
        simp only [delivered] at htty ⊢
        rw [htty, hfull]
        congr 1
      · simp only [SampleOk, rxBufLen, Bool.false_eq_true, ↓reduceIte]
        omega
    · next hpart =>
      refine ⟨⟨hs.ct, hs.ndtr, hs.behind, hs.ahead, hs.stored⟩,
        ⟨hr.rbuf, hr.wbuf, hr.rpos, hr.le, hr.tty⟩, ?_⟩
      simp only [SampleOk, rxBufLen, ↓reduceIte, and_true]
      omega

/-- Every access of a handler keeps the invariant. -/
theorem Inv.run (hi : s.Inv) (h : rxRun s = some s') : s'.Inv := by
  have hs := hi.stream
  have hr := hi.reader
  have hp := hi.sample
  have hct := hs.ct
  have hnd := hs.ndtr
  have hbe := hs.behind
  have hah := hs.ahead
  have hle := hr.le
  unfold rxRun at h
  simp only [SampleOk, delivered] at hp hle
  split at h
  · cases h
  · next usart hpc =>
    cases h
    refine hi.move ?_
    simp only [SampleOk]
    omega
  · next usart newWbuf hpc =>
    rw [hpc] at hp
    cases h
    refine hi.move ?_
    simp only [SampleOk, delivered]
    omega
  · next usart newWbuf newWpos hpc =>
    rw [hpc] at hp
    cases h
    refine hi.move ?_
    split
    · next hsame =>
      simp only [SampleOk, delivered]
      omega
    · next hdiff =>
      simp only [SampleOk]
      omega
  · next usart newWbuf hpc =>
    rw [hpc] at hp
    cases h
    refine hi.move ?_
    simp only [SampleOk, delivered]
    omega
  · next usart newWbuf newWpos hpc =>
    cases h
    exact hi.update hpc
  · next usart wrap hpc =>
    rw [hpc] at hp
    split at h
    · next hlt =>
      cases h
      exact hi.deliver hpc hlt
    · next hge =>
      cases h
      refine hi.move ?_
      cases wrap <;> cases usart <;> simp [SampleOk, endReceive, delivered] at hp ⊢ <;> omega
  · next usart hpc =>
    rw [hpc] at hp
    cases h
    refine hi.move ?_
    split
    · exact hp
    · cases usart
      · trivial
      · exact .inl hp
  · next usart ht tc hpc =>
    rw [hpc] at hp
    cases h
    refine hi.move ?_
    cases usart
    · trivial
    · exact .inl hp
  · cases h
    exact hi.move trivial

/-- Every step keeps the invariant. -/
theorem Inv.step {a : RxAct} (hi : s.Inv) (h : usartRxStep s a = some s') :
    s'.Inv := by
  cases a with
  | byte c => exact hi.byte h
  | lineIdle =>
    simp only [usartRxStep] at h
    split at h
    · cases h
    · cases h
      exact hi.move hi.sample
  | usartIrq =>
    simp only [usartRxStep] at h
    split at h
    · cases h
      exact hi.move trivial
    · cases h
  | dmaIrq =>
    simp only [usartRxStep] at h
    split at h
    · cases h
      exact hi.move trivial
    · cases h
  | run => exact hi.run h

/-- What no event may be lost for: a buffer the stream has left has its `TC` pending, and
on a line without `IDLE` everything is delivered, will be, or was seen by the handler. -/
def Settled (s : UsartRx) : Prop :=
  match s.pc with
  | .none => s.delivered = s.rx.length ∨ s.htif = true ∨ s.tcif = true
  | .readCt _ | .readNdtr _ _ | .rereadNdtr _ _ | .clearIdle => True
  | .checkCt _ _ _ | .update _ _ _ | .fetch _ _ | .readIsr _ | .writeIfcr _ _ _ =>
    s.rx.length = s.seen

/-- Invariant of the runs whose acknowledgements lose no event. -/
structure Live (s : UsartRx) : Prop where
  flip : s.rx.length / 512 = s.turn + 1 → s.tcif = true
  quiet : s.lineIdle = true → s.idle = false → s.Settled

end UsartRx

/-- `TC` is acknowledged only while the stream is on the reader's buffer, and `IDLE` is
cleared only while the line is busy, no byte came since the last read of `NDTR`, or another
receive interrupt is pending. -/
def AckOk (s : UsartRx) : RxAct → Prop
  | .run =>
    match s.pc with
    | .writeIfcr _ _ tc => tc = true → s.ct = s.rbuf
    | .clearIdle => s.lineIdle = true → s.rx.length = s.seen ∨ s.htif = true ∨ s.tcif = true
    | _ => True
  | _ => True

namespace UsartRx

variable {s s' : UsartRx}

private theorem Live.byte {c : UInt8} (hi : s.Inv) (hl : s.Live)
    (h : dmaByte c s = some s') : s'.Live := by
  have hnd := hi.stream.ndtr
  have hbe := hi.stream.behind
  unfold dmaByte at h
  split at h
  · cases h
  · cases h
    refine ⟨fun hf => ?_, fun hq => by cases hq⟩
    simp only [List.length_append, List.length_singleton] at hf
    by_cases he : s.rx.length / 512 = s.turn + 1
    · simp only [hl.flip he, Bool.true_or]
    · have h1 : s.ndtr = 1 := by omega
      simp only [h1, beq_self_eq_true, Bool.or_true]

/-- Where a handler ends without having moved on to the next buffer, `TC` is pending. -/
private theorem Live.wrapped (hi : s.Inv) (hl : s.Live)
    (h : 512 * s.turn + 512 ≤ s.rx.length) : s.tcif = true := by
  have hah := hi.stream.ahead
  exact hl.flip (by omega)

/-- Every guarded access of a handler keeps the liveness invariant. -/
private theorem Live.run (hi : s.Inv) (hl : s.Live) (ok : AckOk s .run)
    (h : rxRun s = some s') : s'.Live := by
  have hq := hl.quiet
  have hp := hi.sample
  have hct := hi.stream.ct
  have hrb := hi.reader.rbuf
  unfold rxRun at h
  simp only [Settled] at hq
  simp only [SampleOk, delivered] at hp
  simp only [AckOk] at ok
  split at h
  · cases h
  · cases h
    exact ⟨hl.flip, fun _ _ => trivial⟩
  · cases h
    exact ⟨hl.flip, fun _ _ => rfl⟩
  · next hpc =>
    rw [hpc] at hq
    cases h
    refine ⟨hl.flip, fun h1 h2 => ?_⟩
    split
    · exact hq h1 h2
    · trivial
  · cases h
    exact ⟨hl.flip, fun _ _ => rfl⟩
  · next usart newWbuf newWpos hpc =>
    rw [hpc] at hq hp
    cases h
    unfold rxUpdate
    dsimp only
    split
    · exact ⟨hl.flip, hq⟩
    · split
      · refine ⟨fun hf => ?_, hq⟩
        have hah := hi.stream.ahead
        dsimp only at hf
        omega
      · exact ⟨hl.flip, hq⟩
  · next usart wrap hpc =>
    rw [hpc] at hq hp
    split at h
    · cases h
      refine ⟨hl.flip, ?_⟩
      simp only [Settled, hpc]
      exact hq
    · next hge =>
      cases h
      refine ⟨hl.flip, fun h1 h2 => ?_⟩
      cases wrap with
      | false => exact hq h1 h2
      | true =>
        cases usart with
        | false =>
          have htc := hl.wrapped hi (by simp only [↓reduceIte] at hp; omega)
          exact .inr (.inr htc)
        | true => trivial
  · next usart hpc =>
    rw [hpc] at hq hp
    cases h
    refine ⟨hl.flip, fun h1 h2 => ?_⟩
    split
    · exact hq h1 h2
    · cases usart with
      | false => exact .inl (hp.trans (hq h1 h2).symm)
      | true => trivial
  · next usart ht tc hpc =>
    rw [hpc] at hq hp ok
    cases h
    refine ⟨fun hf => ?_, fun h1 h2 => ?_⟩
    · dsimp only at hf ⊢
      cases tc with
      | false => simp only [hl.flip hf, Bool.not_false, Bool.and_self]
      | true =>
        have hon := ok rfl
        omega
    · cases usart with
      | false => exact .inl (hp.trans (hq h1 h2).symm)
      | true => trivial
  · next hpc =>
    rw [hpc] at hp ok
    cases h
    refine ⟨hl.flip, fun h1 _ => ?_⟩
    rcases ok h1 with hseen | hflag
    · rcases hp with hd | hfull
      · exact .inl (hd.trans hseen.symm)
      · have hle := hi.reader.le
        simp only [delivered] at hle
        have htc : s.tcif = true := hl.wrapped hi (by omega)
        exact .inr (.inr htc)
    · exact .inr hflag

/-- Every guarded step keeps the liveness invariant. -/
theorem Live.step {a : RxAct} (hi : s.Inv) (hl : s.Live) (ok : AckOk s a)
    (h : usartRxStep s a = some s') : s'.Live := by
  cases a with
  | byte c => exact hl.byte hi h
  | lineIdle =>
    simp only [usartRxStep] at h
    split at h
    · cases h
    · cases h
      exact ⟨hl.flip, fun _ hq => by cases hq⟩
  | usartIrq =>
    simp only [usartRxStep] at h
    split at h
    · cases h
      exact ⟨hl.flip, fun _ _ => trivial⟩
    · cases h
  | dmaIrq =>
    simp only [usartRxStep] at h
    split at h
    · cases h
      exact ⟨hl.flip, fun _ _ => trivial⟩
    · cases h
  | run => exact hl.run hi ok h

/-- The line is idle, no handler runs and no receive interrupt is pending. -/
def Quiescent (s : UsartRx) : Prop :=
  s.lineIdle = true ∧ s.pc = .none ∧ s.idle = false ∧ s.htif = false ∧ s.tcif = false

end UsartRx

/-- The characters passed on are a prefix of the bytes received in every run, and all of
them in every quiescent state of a run whose acknowledgements lose no event. -/
theorem usart_rx_delivery (s : UsartRx) :
    (usartRxSystem.Reach System.Always s → s.tty <+: s.rx) ∧
      (usartRxSystem.Reach AckOk s → s.Quiescent → s.tty = s.rx) := by
  constructor
  · intro h
    have hi : s.Inv := by
      refine h.invariant ?_ ?_
      · exact fun _ h₀ => UsartRx.Started.inv h₀
      · exact fun _ _ _ hi _ he => hi.step he
    rw [hi.reader.tty]
    exact List.take_prefix _ _
  · rintro h ⟨hline, hpc, hidle, hht, htc⟩
    have hl : s.Inv ∧ s.Live := by
      refine @System.Reach.invariant _ _ _ _ (fun s => s.Inv ∧ s.Live) ?_ ?_ s h
      · intro s h₀
        have hi := UsartRx.Started.inv h₀
        obtain ⟨-, -, -, -, -, -, -, -, -, hrp, hp, -, hrx, -, ht⟩ := h₀
        refine ⟨hi, fun hf => ?_, fun _ _ => ?_⟩
        · rw [hrx, ht] at hf
          cases hf
        · simp [UsartRx.Settled, hp, UsartRx.delivered, hrp, ht, hrx]
      · exact fun _ _ _ hi ok he => ⟨hi.1.step he, hi.2.step hi.1 ok he⟩
    have hq := hl.2.quiet hline hidle
    simp only [UsartRx.Settled, hpc, hht, htc, Bool.false_eq_true, or_self, or_false] at hq
    rw [hl.1.reader.tty, hq, List.take_length]

/-- A driver that has just been started. -/
def freshUsartRx : UsartRx where
  ct := 0
  ndtr := rxBufLen
  htif := false
  tcif := false
  rxb := fun _ _ => 0
  idle := false
  lineIdle := true
  wbuf := 0
  wpos := 0
  rbuf := 0
  rpos := 0
  pc := .none
  tty := []
  rx := []
  seen := 0
  turn := 0

private theorem reach_freshUsartRx (ok : UsartRx → RxAct → Prop) :
    usartRxSystem.Reach ok freshUsartRx :=
  .init ⟨rfl, rfl, rfl, rfl, rfl, rfl, rfl, rfl, rfl, rfl, rfl, rfl, rfl, rfl, rfl⟩

/-- One byte on a line that then stays idle is delivered when the handler is done. -/
theorem usart_rx_delivery_one_byte :
    ∃ s : UsartRx, s.tty <+: s.rx ∧ s.Quiescent ∧ s.tty = s.rx ∧ s.rx = [65] := by
  have sampling : usartRxSystem.Reach AckOk _ :=
    ((((reach_freshUsartRx _).step (a := .byte 65) trivial rfl).step (a := .lineIdle) trivial
      rfl).step (a := .usartIrq) trivial rfl)
  have fetching : usartRxSystem.Reach AckOk _ :=
    (((sampling.step (a := .run) (by trivial) rfl).step (a := .run) (by trivial) rfl).step
      (a := .run) (by trivial) rfl).step (a := .run) (by trivial) rfl
  have clearing : usartRxSystem.Reach AckOk _ :=
    ((fetching.step (a := .run) (by trivial) rfl).step (a := .run) (by trivial) rfl).step
      (a := .run) (by trivial) rfl
  have done : usartRxSystem.Reach AckOk _ :=
    clearing.step (a := .run) (fun _ => .inl rfl) rfl
  have ha := (usart_rx_delivery _).1 (done.mono fun _ _ _ => trivial)
  have hb := (usart_rx_delivery _).2 done ⟨rfl, rfl, rfl, rfl, rfl⟩
  exact ⟨_, ha, ⟨rfl, rfl, rfl, rfl, rfl⟩, hb, rfl⟩

/-- A byte and a new idle line between the handler's sample and its clearing of `IDLE` leave
nothing pending and the byte undelivered. -/
theorem usart_rx_loses_idle :
    ∃ s, usartRxSystem.Reach System.Always s ∧ s.Quiescent ∧ s.tty = [65] ∧ s.rx = [65, 66] := by
  obtain ⟨s, he⟩ : ∃ s, usartRxSystem.exec freshUsartRx [.byte 65, .lineIdle, .usartIrq, .run,
      .run, .byte 66, .lineIdle, .run, .run, .run, .run, .run, .run] = some s := ⟨_, rfl⟩
  refine ⟨s, System.reach_of_exec _ (reach_freshUsartRx _) (fun _ _ _ => trivial) he, ?_⟩
  cases he
  exact ⟨⟨rfl, rfl, rfl, rfl, rfl⟩, rfl, rfl⟩

end LinuxStm32.Drivers.Serial
