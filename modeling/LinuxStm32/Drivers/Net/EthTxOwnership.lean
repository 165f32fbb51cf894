import LinuxStm32.Drivers.Net.EthTx
import Mathlib.Data.Nat.ModEq

/-!
# Ownership of the transmit slots

Frame `k` of the accepted ones uses slot `k % tx_buf_num`, and the frames not yet reaped
form a window of at most `tx_buf_num`, so a slot belongs to one frame at a time. A frame of
the window is being filled by its call, is owned by the DMA, or has been sent. The source
takes a slot whose `OWN` bit is clear for sent; `ReapOk` says that it is not still being
filled.
-/

namespace LinuxStm32.Drivers.Net

open Base

/-- Two frames of a window of at most `n` that use the same slot are the same frame. -/
private theorem slot_inj {n lo hi j k : Nat} (hw : hi ≤ lo + n) (hj : lo ≤ j ∧ j < hi)
    (hk : lo ≤ k ∧ k < hi) (h : j % n = k % n) : j = k :=
  Nat.ModEq.eq_of_abs_lt h (abs_lt.mpr ⟨by omega, by omega⟩)

namespace EthTx

/-- Some call is still filling the slot of frame `k`. -/
def Fills (s : EthTx) (k : Nat) : Prop :=
  ∃ task c, s.call task = some c ∧ c.pc ≠ .finish ∧ c.seq = k

/-- A call that has not handed its slot over: it fills the slot of its own frame, with what
it has written so far. -/
structure FillOk (n : Nat) (s : EthTx) (c : Xmit) : Prop where
  idx : c.idx = c.seq % n
  ge : s.reaped ≤ c.seq
  frame : s.accepted[c.seq]? = some c.frame
  data : c.pc ≠ .copy → (s.slot c.idx).data.take c.frame.length = c.frame
  ctrl : c.pc = .own → (s.slot c.idx).ctrl = c.frame.length

/-- A slot owned by the DMA holds a whole accepted frame that is not yet reaped. -/
structure OwnOk (n : Nat) (s : EthTx) (i : Nat) : Prop where
  idx : (s.slot i).seq % n = i
  ge : s.reaped ≤ (s.slot i).seq
  frame : s.accepted[(s.slot i).seq]? = some ((s.slot i).data.take (s.slot i).ctrl)
  handed : ¬ s.Fills (s.slot i).seq

/-- Invariant of the transmit ring. -/
structure Inv (n : Nat) (stats : TxStats) (s : EthTx) : Prop where
  pending : s.reaped + s.txPending = s.accepted.length
  room : s.txPending ≤ n
  todo : s.txTodoIdx = s.accepted.length % n
  done : s.txDoneIdx = s.reaped % n
  counted : (s.stats.txPackets + s.stats.txErrors) % 4294967296 =
    (stats.txPackets + stats.txErrors + s.reaped) % 4294967296
  filling : ∀ task c, s.call task = some c → c.pc ≠ .finish → s.FillOk n c
  alone : ∀ t u c d, s.call t = some c → s.call u = some d → c.pc ≠ .finish → d.pc ≠ .finish →
    c.seq = d.seq → t = u
  owned : ∀ i, tbdOwn (s.slot i).stat = true → s.OwnOk n i
  window : ∀ k f, s.reaped ≤ k → s.accepted[k]? = some f →
    s.Fills k ∨ tbdOwn (s.slot (k % n)).stat = true ∨ (k, f) ∈ s.sent
  sent : ∀ k f, k < s.reaped → s.accepted[k]? = some f → (k, f) ∈ s.sent

end EthTx

/-- Reaping looks at a slot only after the call that captured it has set the `OWN` bit. -/
def ReapOk (s : EthTx) : TxAct → Prop
  | .complete => ∀ task c, s.call task = some c → c.pc ≠ .finish → c.idx ≠ s.txDoneIdx
  | _ => True

namespace EthTx.Inv

variable {n : Nat} {stats : TxStats} {s : EthTx} {task : Nat} {c : Xmit}

private theorem frame_lt {k : Nat} {f : Frame} (h : s.accepted[k]? = some f) :
    k < s.accepted.length :=
  (List.getElem?_eq_some_iff.mp h).1

private theorem window_le (hi : s.Inv n stats) : s.accepted.length ≤ s.reaped + n := by
  have hp := hi.pending
  have hr := hi.room
  omega

/-- The frame in the slot of a frame of the window is that frame. -/
private theorem seq_eq (hi : s.Inv n stats) {i k : Nat} {f : Frame} (ho : s.OwnOk n i)
    (hk : s.reaped ≤ k) (hf : s.accepted[k]? = some f) (h : k % n = i) : (s.slot i).seq = k := by
  refine slot_inj hi.window_le ⟨ho.ge, frame_lt ho.frame⟩ ⟨hk, frame_lt hf⟩ ?_
  rw [ho.idx, h]

/-- The slot of a call that is still filling it is not owned by the DMA. -/
theorem not_own (hi : s.Inv n stats) (hc : s.call task = some c)
    (hp : c.pc ≠ .finish) : tbdOwn (s.slot c.idx).stat = false := by
  have hf := hi.filling task c hc hp
  cases ho : tbdOwn (s.slot c.idx).stat with
  | false => rfl
  | true =>
    have hk := hi.owned _ ho
    have he := hi.seq_eq hk hf.ge hf.frame hf.idx.symm
    exact absurd ⟨task, c, hc, hp, he.symm⟩ hk.handed

/-- Two calls that are still filling the same slot are the same call. -/
private theorem fill_inj (hi : s.Inv n stats) {t u : Nat} {c d : Xmit} (hc : s.call t = some c)
    (hd : s.call u = some d) (hpc : c.pc ≠ .finish) (hpd : d.pc ≠ .finish)
    (h : c.idx = d.idx) : t = u := by
  have hfc := hi.filling t c hc hpc
  have hfd := hi.filling u d hd hpd
  refine hi.alone t u c d hc hd hpc hpd ?_
  refine slot_inj hi.window_le ⟨hfc.ge, frame_lt hfc.frame⟩ ⟨hfd.ge, frame_lt hfd.frame⟩ ?_
  rw [← hfc.idx, ← hfd.idx, h]

/-- The lock, the queue state and the counters of a device whose reaped slots stay counted. -/
private theorem flags (hi : s.Inv n stats) {st : TxStats} {blocked completing : Bool}
    (hst : st.txPackets + st.txErrors = s.stats.txPackets + s.stats.txErrors) :
    EthTx.Inv n stats { s with txBlocked := blocked, stats := st, completing := completing } := by
  refine ⟨hi.pending, hi.room, hi.todo, hi.done, ?_, ?_, hi.alone, ?_, hi.window, hi.sent⟩
  · dsimp only
    rw [hst]
    exact hi.counted
  · intro u d hd hpd
    have hf := hi.filling u d hd hpd
    exact ⟨hf.idx, hf.ge, hf.frame, hf.data, hf.ctrl⟩
  · intro i ho
    have hk := hi.owned i ho
    exact ⟨hk.idx, hk.ge, hk.frame, hk.handed⟩

/-- Capturing the next slot adds one frame at the end of the window. -/
private theorem capture (hi : s.Inv n stats) {frame : Frame}
    (hn : s.call task = none) : (xmitCapture n task frame s).Inv n stats := by
  unfold xmitCapture
  split
  · exact hi
  · next hfull =>
    have hp := hi.pending
    have hlt : s.txPending < n := by
      simp only [not_or, Nat.not_le] at hfull
      exact hfull.2
    have hold {k : Nat} {f : Frame} (h : s.accepted[k]? = some f) :
        (s.accepted ++ [frame])[k]? = some f := by
      rw [List.getElem?_append_left (frame_lt h)]
      exact h
    have hnew {k : Nat} {f : Frame} (h : (s.accepted ++ [frame])[k]? = some f) :
        s.accepted[k]? = some f ∨ k = s.accepted.length ∧ f = frame := by
      rw [List.getElem?_append] at h
      split at h
      · exact .inl h
      · next hge =>
        rw [List.getElem?_singleton] at h
        split at h
        · cases h
          exact .inr ⟨by omega, rfl⟩
        · exact absurd h (by simp)
    refine ⟨?_, hlt, ?_, hi.done, hi.counted, ?_, ?_, ?_, ?_, ?_⟩
    · simp only [List.length_append, List.length_singleton]
      omega
    · simp only [List.length_append, List.length_singleton]
      rw [hi.todo, Nat.mod_add_mod]
    · intro u c hc hpc
      simp only [Function.update_apply] at hc
      split at hc
      · cases hc
        refine ⟨hi.todo, ?_, ?_, fun h => absurd rfl h, fun h => by cases h⟩
        · simp only
          omega
        · simp
      · have hf := hi.filling u c hc hpc
        exact ⟨hf.idx, hf.ge, hold hf.frame, hf.data, hf.ctrl⟩
    · intro t u c d hc hd hpc hpd h
      simp only [Function.update_apply] at hc hd
      split at hc <;> split at hd
      · next ht hu => exact ht.trans hu.symm
      · cases hc
        have hlt := frame_lt (hi.filling u d hd hpd).frame
        simp only at h
        omega
      · cases hd
        have hlt := frame_lt (hi.filling t c hc hpc).frame
        simp only at h
        omega
      · exact hi.alone t u c d hc hd hpc hpd h
    · intro i ho
      have hk := hi.owned i ho
      refine ⟨hk.idx, hk.ge, hold hk.frame, ?_⟩
      rintro ⟨u, c, hc, hpc, he⟩
      simp only [Function.update_apply] at hc
      split at hc
      · cases hc
        have hlt := frame_lt hk.frame
        simp only at he
        omega
      · exact hk.handed ⟨u, c, hc, hpc, he⟩
    · intro k f hk hf
      rcases hnew hf with hf | ⟨rfl, rfl⟩
      · rcases hi.window k f hk hf with ⟨u, c, hc, hpc, he⟩ | ho | hs
        · refine .inl ⟨u, c, ?_, hpc, he⟩
          dsimp only
          rw [Function.update_of_ne]
          · exact hc
          · rintro rfl
            rw [hn] at hc
            cases hc
        · exact .inr (.inl ho)
        · exact .inr (.inr hs)
      · exact .inl ⟨task, _, Function.update_self .., by simp, rfl⟩
    · intro k f hk hf
      rcases hnew hf with hf | ⟨rfl, rfl⟩
      · exact hi.sent k f hk hf
      · simp only at hk
        omega

/-- After an own write the status word has the `OWN` bit. -/
private theorem tbdOwn_or (stat : Nat) :
    tbdOwn (stat ||| (2 ^ 28 ||| 2 ^ 29 ||| 2 ^ 31)) = true := by
  have h : (2 ^ 28 ||| 2 ^ 29 ||| 2 ^ 31 : Nat).testBit 31 = true := by decide
  rw [tbdOwn, Nat.testBit_or, h, Bool.or_true]

/-- A call that writes its buffer or its `ctrl` word goes on filling the slot. -/
private theorem fill (hi : s.Inv n stats) (hc : s.call task = some c)
    (hpc : c.pc = .copy ∨ c.pc = .ctrl) :
    EthTx.Inv n stats { s with
      slot := Function.update s.slot c.idx (xmitWrite c (s.slot c.idx))
      call := Function.update s.call task (some { c with pc := c.pc.next }) } := by
  have hfin : c.pc ≠ .finish := by rcases hpc with h | h <;> rw [h] <;> simp
  have hnext : c.pc.next ≠ .finish := by
    rcases hpc with h | h <;> rw [h] <;> simp [XmitPc.next]
  have hno := hi.not_own hc hfin
  have hstat (i : Nat) : (Function.update s.slot c.idx (xmitWrite c (s.slot c.idx)) i).stat =
      (s.slot i).stat := by
    rw [Function.update_apply]
    split
    · next h =>
      rw [h]
      rcases hpc with h | h <;> simp only [xmitWrite, h]
    · rfl
  have hfills {k : Nat} : EthTx.Fills { s with
      slot := Function.update s.slot c.idx (xmitWrite c (s.slot c.idx))
      call := Function.update s.call task (some { c with pc := c.pc.next }) } k ↔ s.Fills k := by
    constructor
    · rintro ⟨u, d, hd, hpd, hk⟩
      simp only [Function.update_apply] at hd
      split at hd
      · cases hd
        exact ⟨task, c, hc, hfin, hk⟩
      · exact ⟨u, d, hd, hpd, hk⟩
    · rintro ⟨u, d, hd, hpd, hk⟩
      by_cases hu : u = task
      · subst hu
        cases hc.symm.trans hd
        exact ⟨u, _, Function.update_self .., hnext, hk⟩
      · refine ⟨u, d, ?_, hpd, hk⟩
        dsimp only
        rw [Function.update_of_ne hu]
        exact hd
  refine ⟨hi.pending, hi.room, hi.todo, hi.done, hi.counted, ?_, ?_, ?_, ?_, hi.sent⟩
  · intro u d hd hpd
    simp only [Function.update_apply] at hd
    split at hd
    · next hu =>
      cases hd
      have hf := hi.filling task c hc hfin
      refine ⟨hf.idx, hf.ge, hf.frame, fun _ => ?_, fun hown => ?_⟩
      · dsimp only
        rw [Function.update_self]
        rcases hpc with h | h
        · simp [xmitWrite, h]
        · simpa only [xmitWrite, h] using hf.data (by rw [h]; simp)
      · dsimp only at hown ⊢
        rw [Function.update_self]
        rcases hpc with h | h
        · rw [h] at hown
          cases hown
        · simp only [xmitWrite, h]
    · next hu =>
      have hne : d.idx ≠ c.idx := fun h => hu (hi.fill_inj hd hc hpd hfin h)
      have hf := hi.filling u d hd hpd
      refine ⟨hf.idx, hf.ge, hf.frame, ?_, ?_⟩ <;> dsimp only <;>
        rw [Function.update_of_ne hne]
      · exact hf.data
      · exact hf.ctrl
  · intro t u d e hd he hpd hpe h
    simp only [Function.update_apply] at hd he
    split at hd <;> split at he
    · next ht hu => exact ht.trans hu.symm
    · next ht hu =>
      cases hd
      exact ht.trans (hi.alone task u c e hc he hfin hpe h)
    · next ht hu =>
      cases he
      exact (hi.alone t task d c hd hc hpd hfin h).trans hu.symm
    · exact hi.alone t u d e hd he hpd hpe h
  · intro i ho
    dsimp only at ho
    rw [hstat] at ho
    have hne : i ≠ c.idx := by
      rintro rfl
      rw [hno] at ho
      cases ho
    have hk := hi.owned i ho
    have hslot : Function.update s.slot c.idx (xmitWrite c (s.slot c.idx)) i = s.slot i :=
      Function.update_of_ne hne ..
    refine ⟨?_, ?_, ?_, ?_⟩ <;> dsimp only <;> rw [hslot]
    · exact hk.idx
    · exact hk.ge
    · exact hk.frame
    · exact fun h => hk.handed (hfills.mp h)
  · intro k f hk hf
    rcases hi.window k f hk hf with hfl | ho | hs
    · exact .inl (hfills.mpr hfl)
    · refine .inr (.inl ?_)
      dsimp only
      rw [hstat]
      exact ho
    · exact .inr (.inr hs)

/-- Setting the `OWN` bit hands the whole frame over to the DMA. -/
private theorem handOver (hi : s.Inv n stats) (hc : s.call task = some c) (hpc : c.pc = .own) :
    EthTx.Inv n stats { s with
      slot := Function.update s.slot c.idx (xmitWrite c (s.slot c.idx))
      call := Function.update s.call task (some { c with pc := c.pc.next }) } := by
  have hfin : c.pc ≠ .finish := by rw [hpc]; simp
  have hf := hi.filling task c hc hfin
  have hold {u : Nat} {d : Xmit}
      (hd : Function.update s.call task (some { c with pc := c.pc.next }) u = some d)
      (hpd : d.pc ≠ .finish) : u ≠ task ∧ s.call u = some d := by
    rw [Function.update_apply] at hd
    split at hd
    · cases hd
      simp [hpc, XmitPc.next] at hpd
    · next hu => exact ⟨hu, hd⟩
  refine ⟨hi.pending, hi.room, hi.todo, hi.done, hi.counted, ?_, ?_, ?_, ?_, hi.sent⟩
  · intro u d hd hpd
    obtain ⟨hu, hd⟩ := hold hd hpd
    have hne : d.idx ≠ c.idx := fun h => hu (hi.fill_inj hd hc hpd hfin h)
    have hfd := hi.filling u d hd hpd
    refine ⟨hfd.idx, hfd.ge, hfd.frame, ?_, ?_⟩ <;> dsimp only <;>
      rw [Function.update_of_ne hne]
    · exact hfd.data
    · exact hfd.ctrl
  · intro t u d e hd he hpd hpe h
    exact hi.alone t u d e (hold hd hpd).2 (hold he hpe).2 hpd hpe h
  · intro i ho
    by_cases hic : i = c.idx
    · subst hic
      have hw : xmitWrite c (s.slot c.idx) = { s.slot c.idx with
          stat := (s.slot c.idx).stat ||| (2 ^ 28 ||| 2 ^ 29 ||| 2 ^ 31), seq := c.seq } := by
        simp only [xmitWrite, hpc]
      refine ⟨?_, ?_, ?_, ?_⟩ <;> dsimp only <;> rw [Function.update_self, hw]
      · exact hf.idx.symm
      · exact hf.ge
      · dsimp only
        rw [hf.ctrl hpc, hf.data (by rw [hpc]; simp)]
        exact hf.frame
      · rintro ⟨u, d, hd, hpd, hk⟩
        obtain ⟨hu, hd⟩ := hold hd hpd
        exact hu (hi.alone u task d c hd hc hpd hfin hk)
    · have hslot : Function.update s.slot c.idx (xmitWrite c (s.slot c.idx)) i = s.slot i :=
        Function.update_of_ne hic ..
      dsimp only at ho
      rw [hslot] at ho
      have hk := hi.owned i ho
      refine ⟨?_, ?_, ?_, ?_⟩ <;> dsimp only <;> rw [hslot]
      · exact hk.idx
      · exact hk.ge
      · exact hk.frame
      · rintro ⟨u, d, hd, hpd, he⟩
        exact hk.handed ⟨u, d, (hold hd hpd).2, hpd, he⟩
  · intro k f hk hfk
    by_cases hkc : k % n = c.idx
    · refine .inr (.inl ?_)
      dsimp only
      rw [hkc, Function.update_self]
      simp only [xmitWrite, hpc]
      exact tbdOwn_or _
    · rcases hi.window k f hk hfk with ⟨u, d, hd, hpd, he⟩ | ho | hs
      · refine .inl ⟨u, d, ?_, hpd, he⟩
        dsimp only
        rw [Function.update_of_ne]
        · exact hd
        · rintro rfl
          cases hc.symm.trans hd
          rw [← he, ← hf.idx] at hkc
          exact hkc rfl
      · refine .inr (.inl ?_)
        dsimp only
        rw [Function.update_of_ne hkc]
        exact ho
      · exact .inr (.inr hs)

/-- A call that has handed its slot over ends. -/
private theorem finish (hi : s.Inv n stats) {blocked : Bool}
    (hc : s.call task = some c) (hpc : c.pc = .finish) :
    EthTx.Inv n stats { s with
      txBlocked := blocked, call := Function.update s.call task none } := by
  have hold {u : Nat} {d : Xmit} (hd : Function.update s.call task none u = some d) :
      s.call u = some d := by
    rw [Function.update_apply] at hd
    split at hd
    · cases hd
    · exact hd
  refine ⟨hi.pending, hi.room, hi.todo, hi.done, hi.counted, ?_, ?_, ?_, ?_, hi.sent⟩
  · intro u d hd hpd
    have hf := hi.filling u d (hold hd) hpd
    exact ⟨hf.idx, hf.ge, hf.frame, hf.data, hf.ctrl⟩
  · intro t u d e hd he
    exact hi.alone t u d e (hold hd) (hold he)
  · intro i ho
    have hk := hi.owned i ho
    refine ⟨hk.idx, hk.ge, hk.frame, ?_⟩
    rintro ⟨u, d, hd, hpd, he⟩
    exact hk.handed ⟨u, d, hold hd, hpd, he⟩
  · intro k f hk hf
    rcases hi.window k f hk hf with ⟨u, d, hd, hpd, he⟩ | h
    · refine .inl ⟨u, d, ?_, hpd, he⟩
      dsimp only
      rw [Function.update_of_ne]
      · exact hd
      · rintro rfl
        cases hc.symm.trans hd
        exact hpd hpc
    · exact .inr h

/-- The DMA sends the frame of the slot it owns. -/
private theorem transmit (hi : s.Inv n stats) {i stat : Nat} (ho : tbdOwn (s.slot i).stat = true)
    (hstat : tbdOwn stat = false) :
    EthTx.Inv n stats { s with
      slot := Function.update s.slot i { s.slot i with stat := stat }
      sent := ((s.slot i).seq, (s.slot i).data.take (s.slot i).ctrl) :: s.sent } := by
  have hslot (j : Nat) : Function.update s.slot i { s.slot i with stat := stat } j =
      { s.slot j with stat := if j = i then stat else (s.slot j).stat } := by
    rw [Function.update_apply]
    split
    · next h => rw [h]
    · rfl
  refine ⟨hi.pending, hi.room, hi.todo, hi.done, hi.counted, ?_, hi.alone, ?_, ?_, ?_⟩
  · intro u d hd hpd
    have hf := hi.filling u d hd hpd
    refine ⟨hf.idx, hf.ge, hf.frame, ?_, ?_⟩ <;> dsimp only <;> rw [hslot]
    · exact hf.data
    · exact hf.ctrl
  · intro j hj
    dsimp only at hj
    rw [hslot] at hj
    dsimp only at hj
    split at hj
    · rw [hstat] at hj
      cases hj
    · have hk := hi.owned j hj
      refine ⟨?_, ?_, ?_, ?_⟩ <;> dsimp only <;> rw [hslot]
      · exact hk.idx
      · exact hk.ge
      · exact hk.frame
      · exact hk.handed
  · intro k f hk hf
    rcases hi.window k f hk hf with hfl | hown | hs
    · exact .inl hfl
    · by_cases hki : k % n = i
      · have hok := hi.owned i ho
        have hseq := hi.seq_eq hok hk hf hki
        have hfr := hok.frame
        rw [hseq] at hfr
        cases hf.symm.trans hfr
        refine .inr (.inr ?_)
        dsimp only
        rw [hseq]
        exact List.mem_cons_self
      · refine .inr (.inl ?_)
        dsimp only
        rw [hslot]
        simpa only [hki, ↓reduceIte] using hown
    · exact .inr (.inr (List.mem_cons_of_mem _ hs))
  · intro k f hk hf
    exact List.mem_cons_of_mem _ (hi.sent k f hk hf)

/-- A reaped slot is counted once, as a packet or as an error. -/
private theorem reap_counted (st : TxStats) (stat len : Nat) :
    ((st.reap stat len).txPackets + (st.reap stat len).txErrors) % 4294967296 =
      (st.txPackets + st.txErrors + 1) % 4294967296 := by
  simp only [TxStats.reap]
  split <;> simp only [wadd] <;> omega

/-- A round of the reaping loop takes a slot only when its frame has been sent. -/
private theorem complete (hi : s.Inv n stats)
    (ok : ∀ task c, s.call task = some c → c.pc ≠ .finish → c.idx ≠ s.txDoneIdx) :
    (txCompleteRound n s).Inv n stats := by
  unfold txCompleteRound
  dsimp only
  split
  · exact hi.flags rfl
  · next hreap =>
    have hp := hi.pending
    have hr := hi.room
    have hd := hi.done
    simp only [not_or, Bool.not_eq_true] at hreap
    obtain ⟨hpos, hown⟩ := hreap
    rw [hd] at hown
    refine ⟨?_, ?_, hi.todo, ?_, ?_, ?_, hi.alone, ?_, ?_, ?_⟩
    · dsimp only
      omega
    · dsimp only
      omega
    · dsimp only
      rw [hd, Nat.mod_add_mod]
    · have hc := hi.counted
      have hs := reap_counted s.stats (s.slot s.txDoneIdx).stat (s.slot s.txDoneIdx).len
      dsimp only
      omega
    · intro u d hcu hpd
      have hf := hi.filling u d hcu hpd
      refine ⟨hf.idx, ?_, hf.frame, hf.data, hf.ctrl⟩
      have hne := ok u d hcu hpd
      rw [hf.idx, hd] at hne
      have hne' : d.seq ≠ s.reaped := fun h => hne (by rw [h])
      have hge := hf.ge
      dsimp only
      omega
    · intro i ho
      have hk := hi.owned i ho
      refine ⟨hk.idx, ?_, hk.frame, hk.handed⟩
      have hne : (s.slot i).seq ≠ s.reaped := by
        intro h
        have hidx := hk.idx
        rw [h] at hidx
        rw [hidx] at hown
        exact absurd (ho.symm.trans hown) (by simp)
      have hge := hk.ge
      dsimp only
      omega
    · intro k f hk hf
      dsimp only at hk
      exact hi.window k f (by omega) hf
    · intro k f hk hf
      dsimp only at hk
      by_cases hlt : k < s.reaped
      · exact hi.sent k f hlt hf
      · have hke : k = s.reaped := by omega
        subst hke
        rcases hi.window _ f (Nat.le_refl _) hf with ⟨u, d, hcu, hpd, hseq⟩ | ho | hs
        · have hidx := (hi.filling u d hcu hpd).idx
          rw [hseq, ← hd] at hidx
          exact absurd hidx (ok u d hcu hpd)
        · exact absurd (ho.symm.trans hown) (by simp)
        · exact hs

end EthTx.Inv

/-- An open device satisfies the invariant. -/
theorem EthTx.Opened.inv {n : Nat} {stats : TxStats} {s : EthTx} (h : s.Opened stats) :
    s.Inv n stats := by
  obtain ⟨hp, ht, hd, hst, hown, hcall, -, hacc, hr, -⟩ := h
  refine ⟨?_, ?_, ?_, ?_, ?_, ?_, ?_, ?_, ?_, ?_⟩
  · rw [hr, hp, hacc]
    rfl
  · rw [hp]
    exact Nat.zero_le n
  · rw [ht, hacc, List.length_nil, Nat.zero_mod]
  · rw [hd, hr, Nat.zero_mod]
  · rw [hst, hr, Nat.add_zero]
  · intro task c hc
    rw [hcall] at hc
    cases hc
  · intro t u c d hc
    rw [hcall] at hc
    cases hc
  · intro i ho
    rw [hown] at ho
    cases ho
  · intro k f _ hf
    rw [hacc] at hf
    cases hf
  · intro k f hk
    rw [hr] at hk
    exact absurd hk (Nat.not_lt_zero k)

/-- Every step keeps the invariant when reaping looks at slots that were handed over. -/
theorem inv_ethTxStep {n frameMaxSize : Nat} {stats : TxStats} {s s' : EthTx} {a : TxAct}
    (hi : s.Inv n stats) (ok : ReapOk s a) (h : ethTxStep n frameMaxSize s a = some s') :
    s'.Inv n stats := by
  cases a with
  | xmit task frame =>
    simp only [ethTxStep] at h
    split at h
    · cases h
    · next hc =>
      split at h
      · cases h
        exact hi.flags rfl
      · split at h
        · cases h
        · cases h
          exact hi.capture (by simpa using hc)
  | advance task =>
    simp only [ethTxStep] at h
    split at h
    · cases h
    · next c hc =>
      split at h
      · next hpc =>
        split at h
        · cases h
        · cases h
          exact hi.finish hc hpc
      · next hpc =>
        cases h
        cases hp : c.pc with
        | copy => exact hp ▸ hi.fill hc (.inl hp)
        | ctrl => exact hp ▸ hi.fill hc (.inr hp)
        | own => exact hp ▸ hi.handOver hc hp
        | finish => exact absurd hp hpc
  | irq tus =>
    simp only [ethTxStep] at h
    split at h
    · cases h
    · cases h
      exact hi.flags rfl
  | complete =>
    simp only [ethTxStep] at h
    split at h
    · cases h
      exact hi.complete ok
    · cases h
  | dma idx stat =>
    simp only [ethTxStep] at h
    split at h
    · next ho =>
      cases h
      exact hi.transmit ho.1 ho.2
    · cases h

/-- What the ring is for: no write goes to a slot of the DMA, only sent frames are reaped
and counted, and the indices describe the frames in between. -/
structure EthTx.RingOk (n : Nat) (stats : TxStats) (s : EthTx) : Prop where
  writes : ∀ task c, s.call task = some c → c.pc ≠ .finish → tbdOwn (s.slot c.idx).stat = false
  reaped : ∀ k < s.reaped, ∃ f, s.accepted[k]? = some f ∧ (k, f) ∈ s.sent
  counted : (s.stats.txPackets + s.stats.txErrors) % 4294967296 =
    (stats.txPackets + stats.txErrors + s.reaped) % 4294967296
  pending : s.reaped ≤ s.accepted.length ∧ s.txPending = s.accepted.length - s.reaped
  index : (s.txDoneIdx + s.txPending) % n = s.txTodoIdx

/-- In every run that reaps no slot before it was handed over, the ring is as it should be
in every state. -/
theorem eth_tx_ownership {n frameMaxSize : Nat} {stats : TxStats} {s : EthTx}
    (h : (ethTxSystem n frameMaxSize stats).Reach ReapOk s) : s.RingOk n stats := by
  have hi : s.Inv n stats := by
    refine h.invariant ?_ ?_
    · exact fun _ ho => EthTx.Opened.inv ho
    · exact fun _ _ _ hi ok he => inv_ethTxStep hi ok he
  have hp := hi.pending
  refine ⟨fun task c hc hpc => hi.not_own hc hpc, fun k hk => ?_, hi.counted, ?_, ?_⟩
  · have hlt : k < s.accepted.length := by omega
    have hf : s.accepted[k]? = some s.accepted[k] := List.getElem?_eq_getElem hlt
    exact ⟨_, hf, hi.sent k _ hk hf⟩
  · omega
  · rw [hi.done, hi.todo, Nat.mod_add_mod, hp]

/-- A device right after it was opened. -/
def freshEthTx : EthTx where
  txPending := 0
  txTodoIdx := 0
  txDoneIdx := 0
  txBlocked := false
  slot := fun _ => ⟨2 ^ 20, 0, 0, [], 0⟩
  stats := ⟨0, 0, 0, 0, 0, 0, 0⟩
  call := fun _ => none
  completing := false
  accepted := []
  reaped := 0
  sent := []

private theorem reach_freshEthTx (n frameMaxSize : Nat) (ok : EthTx → TxAct → Prop) :
    (ethTxSystem n frameMaxSize ⟨0, 0, 0, 0, 0, 0, 0⟩).Reach ok freshEthTx :=
  .init ⟨rfl, rfl, rfl, rfl, fun _ => (by decide : tbdOwn (2 ^ 20) = false),
    fun _ => rfl, rfl, rfl, rfl, rfl⟩

/-- A frame goes through a ring of one slot: captured, filled, handed over, sent, reaped. -/
theorem eth_tx_ownership_one_frame :
    ∃ s : EthTx, s.RingOk 1 ⟨0, 0, 0, 0, 0, 0, 0⟩ ∧ s.reaped = 1 ∧ s.sent = [(0, [7, 9])] := by
  obtain ⟨s, he, hcall, hc, hreap, hsent⟩ : ∃ s : EthTx,
      (ethTxSystem 1 1500 ⟨0, 0, 0, 0, 0, 0, 0⟩).exec freshEthTx
        [.xmit 0 [7, 9], .advance 0, .advance 0, .advance 0, .advance 0, .dma 0 (2 ^ 20),
          .irq false] = some s ∧
      (∀ task, s.call task = none) ∧ s.completing = true ∧
      (txCompleteRound 1 s).reaped = 1 ∧ (txCompleteRound 1 s).sent = [(0, [7, 9])] := by
    refine ⟨_, rfl, fun task => ?_, rfl, rfl, rfl⟩
    change Function.update (Function.update (Function.update (Function.update (Function.update
      (fun _ => none) 0 _) 0 _) 0 _) 0 _) 0 none task = none
    simp only [Function.update_idem, Function.update_apply]
    split <;> rfl
  have hr := System.reach_of_exec _ (reach_freshEthTx 1 1500 ReapOk) (by simp [ReapOk]) he
  have hok : ReapOk s .complete := fun task c hcc => by
    rw [hcall] at hcc
    cases hcc
  have hr' : (ethTxSystem 1 1500 ⟨0, 0, 0, 0, 0, 0, 0⟩).Reach ReapOk (txCompleteRound 1 s) := by
    refine hr.step hok ?_
    simp [ethTxSystem, ethTxStep, hc]
  exact ⟨_, eth_tx_ownership hr', hreap, hsent⟩

/-- The interrupt reaps a slot between its capture and the `OWN` write, before anything was
sent; the slot is then captured again, and the second call writes to it while the first has
given it to the DMA. -/
theorem eth_tx_reaps_unsent :
    (∃ s, (ethTxSystem 1 1500 ⟨0, 0, 0, 0, 0, 0, 0⟩).Reach System.Always s ∧
      s.reaped = 1 ∧ s.stats.txPackets = 1 ∧ s.sent = []) ∧
    ∃ s c, (ethTxSystem 1 1500 ⟨0, 0, 0, 0, 0, 0, 0⟩).Reach System.Always s ∧
      s.call 1 = some c ∧ c.pc = .copy ∧ tbdOwn (s.slot c.idx).stat = true := by
  constructor
  · obtain ⟨s, he⟩ : ∃ s, (ethTxSystem 1 1500 ⟨0, 0, 0, 0, 0, 0, 0⟩).exec freshEthTx
        [.xmit 0 [7, 9], .irq false, .complete] = some s := ⟨_, rfl⟩
    refine ⟨s, System.reach_of_exec _ (reach_freshEthTx ..) (fun _ _ _ => trivial) he, ?_⟩
    cases he
    exact ⟨rfl, rfl, rfl⟩
  · obtain ⟨s, he⟩ : ∃ s, (ethTxSystem 1 1500 ⟨0, 0, 0, 0, 0, 0, 0⟩).exec freshEthTx
        [.xmit 0 [7, 9], .irq false, .complete, .complete, .xmit 1 [5], .advance 0, .advance 0,
          .advance 0] = some s := ⟨_, rfl⟩
    refine ⟨s, ⟨1, 0, [5], .copy⟩,
      System.reach_of_exec _ (reach_freshEthTx ..) (fun _ _ _ => trivial) he, ?_⟩
    cases he
    exact ⟨rfl, rfl, by decide⟩

end LinuxStm32.Drivers.Net
