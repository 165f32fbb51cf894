import LinuxStm32.Kernel.TimerWheel

/-!
# Runs of the kernel timers

In every run a timer is called just once after it was queued, in the iteration of `__run_timers`
that processes the tick it was queued for, unless it is deleted or modified before; a timer that was
queued for the past is called in the next iteration, and a timer that is not queued is not called.
-/

namespace LinuxStm32.Kernel

open Base

variable {τ : Type} [DecidableEq τ] {s s' : Timers τ} {t x : τ} {N : Nat} {due : τ → Nat}
  {a : TimerAct τ} {as : List (TimerAct τ)} {e : BitVec 32}

/-- Tick `N` is the next one, each timer is due at its tick and in the right list, and those of
`work_list` are due at the tick that is being processed. -/
structure TimerInv (N : Nat) (due : τ → Nat) (s : Timers τ) : Prop where
  tick : s.timerJiffies = BitVec.ofNat 32 N
  placed : ∀ n i t, t ∈ s.vec n i → Placed N (due t) (s.expires t) n i
  work : ∀ t ∈ s.workList, due t + 1 = N
  linked : Timers.Linked [] s
  out : s.pc = .out → s.workList = []

/-! ### The steps -/

theorem placed_succ_of_later {d n i : Nat} (h : Placed N d e n i)
    (hlater : Later N d n) (hne : (n, i) ≠ (0, N % 256)) : Placed (N + 1) d e n i := by
  cases n with
  | zero =>
    obtain ⟨hle, hlt, hi⟩ := h
    have hd : d ≠ N := by
      intro heq
      apply hne
      rw [hi, heq]
    exact ⟨by omega, by omega, hi⟩
  | succ n =>
    obtain ⟨hn, he, hmax, hi, hwaits⟩ := h
    exact ⟨hn, he, by omega, hi, hwaits.succ hlater⟩

/-- An iteration takes the timers that are due. -/
theorem TimerInv.iterate (h : TimerInv N due s) (hpc : s.pc = .locked) (hwork : s.workList = []) :
    TimerInv (N + 1) due s.iterate ∧ s.iterate.pending = s.pending := by
  have hstart : Timers.Cascaded N due s 0 s := by
    refine ⟨fun n i t ht => ⟨h.placed n i t ht, fun hn => ?_⟩, h.linked, h.tick, s.vec, rfl⟩
    rw [Nat.le_zero.mp hn]
    exact trivial
  have hc := Timers.cascaded_cascadeTimers hstart
  have hindex : tvrIndex s.timerJiffies = N % 256 := by rw [h.tick, tvrIndex_ofNat]
  obtain ⟨vec, hsame⟩ := hc.same
  have hwheel := hc.wheel
  have hlinked := hc.linked
  have hiter : s.iterate = { s.cascadeTimers.clear (0, N % 256) with
      timerJiffies := s.timerJiffies + 1#32
      workList := s.cascadeTimers.vec 0 (N % 256) } := by
    rw [Timers.iterate, hindex, hsame]
  generalize s.cascadeTimers = u at *
  have hexpires : u.expires = s.expires := by rw [hsame]
  have hpending : u.pending = s.pending := by rw [hsame]
  have huwork : u.workList = [] := by
    rw [hsame]
    exact hwork
  have hclear := hlinked.clear (0, N % 256)
  rw [hiter]
  refine ⟨⟨?_, fun n i t ht => ?_, fun t ht => ?_, ?_, fun hpc' => ?_⟩, hpending⟩
  · show s.timerJiffies + 1#32 = _
    rw [h.tick, BitVec.ofNat_add]
  · obtain ⟨hmem, hne⟩ := Timers.mem_clear.mp ht
    obtain ⟨hplaced, hlater⟩ := hwheel n i t hmem
    have hn : n ≤ 4 := by
      cases n with
      | zero => exact Nat.zero_le 4
      | succ n => exact hplaced.1
    exact placed_succ_of_later hplaced (hlater hn) hne
  · obtain ⟨⟨hle, hlt, hi⟩, -⟩ := hwheel 0 (N % 256) t ht
    omega
  · -- the timers of the list that is emptied are those of `work_list`
    refine ⟨fun t _ => ?_, fun t ht => absurd ht List.not_mem_nil, List.nodup_nil, hclear.nodup,
      hclear.unique, hlinked.nodup 0 _, fun t ht => (hclear.loose t ht).2⟩
    show u.pending t = true ↔ t ∈ u.vec 0 (N % 256) ∨ _
    rw [hlinked.pending t List.not_mem_nil, huwork]
    constructor
    · rintro (hnil | ⟨n, i, hv⟩)
      · exact absurd hnil List.not_mem_nil
      · by_cases heq : (n, i) = (0, N % 256)
        · obtain ⟨hn, hi⟩ := Prod.mk.inj heq
          rw [hn, hi] at hv
          exact .inl hv
        · exact .inr ⟨n, i, Timers.mem_clear.mpr ⟨hv, heq⟩⟩
    · rintro (hv | ⟨n, i, hv⟩)
      · exact .inr ⟨0, _, hv⟩
      · exact .inr ⟨n, i, (Timers.mem_clear.mp hv).1⟩
  · have hlocked : u.pc = .locked := by
      rw [hsame]
      exact hpc
    exact absurd (hlocked.symm.trans hpc') nofun

/-- A timer that is deleted or called is in no list any more. -/
theorem TimerInv.detach (h : TimerInv N due s) (t : τ) : TimerInv N due (s.detachTimer t true) := by
  refine ⟨h.tick, fun n i x hx => ?_, fun x hx => ?_, h.linked.detach t true, fun hpc => ?_⟩
  · exact h.placed n i x ((h.linked.mem_detach_vec true).mp hx).2
  · exact h.work x ((h.linked.mem_detach_work true).mp hx).2
  · show s.workList.erase t = []
    rw [h.out hpc]
    rfl

/-- A timer that is in no list is queued for its tick. -/
theorem TimerInv.add {u : Timers τ} (htick : u.timerJiffies = BitVec.ofNat 32 N)
    (hplaced : ∀ n i x, x ∈ u.vec n i → Placed N (due x) (u.expires x) n i)
    (hwork : ∀ x ∈ u.workList, due x + 1 = N) (hlinked : Timers.Linked [t] u)
    (hout : u.pc = .out → u.workList = []) :
    TimerInv N (Function.update due t (N + timerDelay u.timerJiffies e))
      ({ u with expires := Function.update u.expires t e }.internalAddTimer t) := by
  obtain ⟨htwork, htvec⟩ := hlinked.loose t List.mem_cons_self
  have hl : Timers.Linked [t] { u with expires := Function.update u.expires t e } :=
    ⟨hlinked.pending, hlinked.loose, hlinked.looseNodup, hlinked.nodup, hlinked.unique,
      hlinked.workNodup, hlinked.apart⟩
  refine ⟨htick, fun n i x hx => ?_, fun x hx => ?_, hl.addTail _, hout⟩
  · show Placed N _ (Function.update u.expires t e x) n i
    rcases Timers.mem_addTail.mp hx with hx | ⟨hxt, hslot⟩
    · have hne : x ≠ t := fun heq => htvec n i (heq ▸ hx)
      rw [Function.update_of_ne hne, Function.update_of_ne hne]
      exact hplaced n i x hx
    · have hslot' : (n, i) = timerSlot u.timerJiffies e := by
        rw [hslot]
        show timerSlot u.timerJiffies (Function.update u.expires t e t) = _
        rw [Function.update_self]
      rw [htick] at hslot'
      obtain ⟨hn, hi⟩ := Prod.mk.inj hslot'
      rw [hxt, Function.update_self, Function.update_self, htick, hn, hi]
      exact (timerSlot_placed N e).1
  · have hne : x ≠ t := fun heq => htwork (heq ▸ hx)
    rw [Function.update_of_ne hne]
    exact hwork x hx

/-- `__mod_timer` queues the timer for its tick. -/
theorem TimerInv.modTimerLocked (h : TimerInv N due s) (t : τ) (e : BitVec 32) :
    TimerInv N (Function.update due t (N + timerDelay s.timerJiffies e))
      (s.modTimerLocked t e).2 := by
  rw [Timers.modTimerLocked]
  dsimp only
  cases hp : s.pending t with
  | false =>
    exact TimerInv.add h.tick h.placed h.work (h.linked.of_not_pending hp) h.out
  | true =>
    apply TimerInv.add (u := s.detachTimer t false) h.tick _ _ (h.linked.detach t false)
    · intro hpc
      show s.workList.erase t = []
      rw [h.out hpc]
      rfl
    · intro n i x hx
      exact h.placed n i x ((h.linked.mem_detach_vec false).mp hx).2
    · intro x hx
      exact h.work x ((h.linked.mem_detach_work false).mp hx).2

/-- The step adds, modifies or deletes the timer: `mod_timer` does nothing for a pending timer with
that `expires`. -/
def Touches (s : Timers τ) (a : TimerAct τ) (t : τ) : Prop :=
  match a with
  | .addTimer u _ => u = t
  | .modTimer u e => u = t ∧ ¬ (s.pending u = true ∧ s.expires u = e)
  | .delTimer u => u = t
  | _ => False

/-- No step of the run adds, modifies or deletes the timer. -/
def Untouched (t : τ) : Timers τ → List (TimerAct τ) → Prop
  | _, [] => True
  | s, a :: as => ¬ Touches s a t ∧ ∀ s', timerStep s a = some s' → Untouched t s' as

theorem untouched_of_forall (h : ∀ a ∈ as, ∀ s, ¬ Touches s a t) :
    Untouched t s as := by
  induction as generalizing s with
  | nil => trivial
  | cons a as ih =>
    exact ⟨h a List.mem_cons_self s, fun _ _ => ih fun b hb => h b (List.mem_cons_of_mem a hb)⟩

/-- The step calls the function of the timer. -/
def Calls (s : Timers τ) (a : TimerAct τ) (t : τ) : Prop :=
  a = .call ∧ s.workList.head? = some t

instance (s : Timers τ) (a : TimerAct τ) (t : τ) : Decidable (Calls s a t) :=
  inferInstanceAs (Decidable (_ ∧ _))

/-- The step queues the timer. -/
def Queues (s : Timers τ) (a : TimerAct τ) (t : τ) (e : BitVec 32) : Prop :=
  a = .addTimer t e ∨ a = .modTimer t e ∧ ¬ (s.pending t = true ∧ s.expires t = e)

theorem addTimer_eq (hp : s.pending t = false) (e : BitVec 32) :
    s.addTimer t e = some (s.modTimerLocked t e).2 := by
  rw [Timers.addTimer, Timers.modTimer, Timers.modTimerLocked, hp]
  simp only [Bool.false_eq_true, if_false, Bool.false_and, Timers.modTimerLocked, hp,
    Function.update_idem]

theorem timerStep_queues (h : Queues s a t e) (hstep : timerStep s a = some s') :
    s' = (s.modTimerLocked t e).2 := by
  rcases h with rfl | ⟨rfl, hne⟩
  · rw [timerStep] at hstep
    split at hstep
    next => cases hstep
    next =>
      cases hp : s.pending t with
      | true =>
        rw [Timers.addTimer, hp] at hstep
        cases hstep
      | false =>
        rw [addTimer_eq hp] at hstep
        exact (Option.some.inj hstep).symm
  · rw [timerStep] at hstep
    split at hstep
    next => cases hstep
    next =>
      rw [Timers.modTimer, if_neg (by rwa [Bool.and_eq_true, decide_eq_true_iff])] at hstep
      exact (Option.some.inj hstep).symm

theorem pending_modTimerLocked (s : Timers τ) (t : τ) (e : BitVec 32) :
    (s.modTimerLocked t e).2.pending = Function.update s.pending t true := by
  rw [Timers.modTimerLocked]
  dsimp only
  split <;> rfl

/-- What a step does to a timer that it does not add, modify or delete. -/
structure StepSpec (N : Nat) (due : τ → Nat) (s : Timers τ) (a : TimerAct τ) (s' : Timers τ)
    (due' : τ → Nat) : Prop where
  inv : TimerInv (N + if a = .iterate then 1 else 0) due' s'
  due : ∀ x, ¬ Touches s a x → due' x = due x
  kept : ∀ x, ¬ Touches s a x → ¬ Calls s a x → s'.pending x = s.pending x
  called : ∀ x, Calls s a x → s'.pending x = false

/-- A step of the clock or of `__run_timers` that leaves lists and timers alone. -/
theorem StepSpec.of_pc (h : TimerInv N due s) (ha : a ≠ .iterate) (hcall : a ≠ .call)
    (hs' : s' = { s with jiffies := s'.jiffies, pc := s'.pc })
    (hout : s'.pc = .out → s.workList = []) : StepSpec N due s a s' due := by
  rw [hs'] at hout ⊢
  refine ⟨?_, fun _ _ => rfl, fun _ _ _ => rfl, fun _ hc => absurd hc.1 hcall⟩
  rw [if_neg ha]
  exact ⟨h.tick, h.placed, h.work, ⟨h.linked.pending, h.linked.loose, h.linked.looseNodup,
    h.linked.nodup, h.linked.unique, h.linked.workNodup, h.linked.apart⟩, hout⟩

theorem StepSpec.of_queue (h : TimerInv N due s) (ha : a ≠ .iterate)
    (hcall : a ≠ .call) (htouch : Touches s a t) :
    StepSpec N due s a (s.modTimerLocked t e).2
      (Function.update due t (N + timerDelay s.timerJiffies e)) := by
  have hne (x : τ) (hx : ¬ Touches s a x) : x ≠ t := fun heq => hx (heq ▸ htouch)
  refine ⟨?_, fun x hx => Function.update_of_ne (hne x hx) _ _, fun x hx _ => ?_,
    fun _ hc => absurd hc.1 hcall⟩
  · rw [if_neg ha]
    exact h.modTimerLocked t e
  · rw [pending_modTimerLocked, Function.update_of_ne (hne x hx)]

theorem pending_detach (s : Timers τ) (t : τ) :
    (s.detachTimer t true).pending = Function.update s.pending t false := rfl

theorem pending_delTimer (s : Timers τ) (t : τ) :
    (s.delTimer t).2.pending = Function.update s.pending t false := by
  rw [Timers.delTimer]
  split
  · rfl
  · next hp => rw [← eq_false_of_ne_true hp, Function.update_eq_self]

/-- Every step keeps the timers on their ticks. -/
theorem timerStep_spec (h : TimerInv N due s) (hstep : timerStep s a = some s') :
    ∃ due', StepSpec N due s a s' due' := by
  cases a with
  | advance n =>
    obtain rfl := Option.some.inj hstep
    exact ⟨due, .of_pc h nofun nofun rfl h.out⟩
  | addTimer t e =>
    rw [timerStep_queues (.inl rfl) hstep]
    exact ⟨_, .of_queue h nofun nofun rfl⟩
  | modTimer t e =>
    by_cases hsame : s.pending t = true ∧ s.expires t = e
    · rw [timerStep] at hstep
      split at hstep
      next => cases hstep
      next =>
        rw [Timers.modTimer, if_pos (by rwa [Bool.and_eq_true, decide_eq_true_iff])] at hstep
        obtain rfl := Option.some.inj hstep
        exact ⟨due, .of_pc h nofun nofun rfl h.out⟩
    · rw [timerStep_queues (.inr ⟨rfl, hsame⟩) hstep]
      exact ⟨_, .of_queue h nofun nofun ⟨rfl, hsame⟩⟩
  | delTimer t =>
    rw [timerStep] at hstep
    split at hstep
    next => cases hstep
    next =>
      obtain rfl := Option.some.inj hstep
      have hinv : TimerInv N due (s.delTimer t).2 := by
        rw [Timers.delTimer]
        split
        · exact h.detach t
        · exact h
      refine ⟨due, ⟨hinv, fun _ _ => rfl, fun x hx _ => ?_, fun x hc => nomatch hc.1⟩⟩
      rw [pending_delTimer, Function.update_of_ne (Ne.symm hx)]
  | runTimers | ret =>
    rw [timerStep] at hstep
    split at hstep
    next =>
      obtain rfl := Option.some.inj hstep
      exact ⟨due, .of_pc h nofun nofun rfl nofun⟩
    next => cases hstep
  | iterate =>
    rw [timerStep] at hstep
    split at hstep
    next hc =>
      obtain rfl := Option.some.inj hstep
      obtain ⟨hinv, hpending⟩ := h.iterate hc.1 hc.2.1
      exact ⟨due,
        ⟨hinv, fun _ _ => rfl, fun x _ _ => congrFun hpending x, fun x hc => nomatch hc.1⟩⟩
    next => cases hstep
  | call =>
    rw [timerStep] at hstep
    split at hstep
    next => cases hstep
    next t rest hwork =>
      split at hstep
      next =>
        obtain rfl := Option.some.inj hstep
        have hdetach := h.detach t
        have hinv : TimerInv N due { s.detachTimer t true with pc := .callback } :=
          ⟨hdetach.tick, hdetach.placed, hdetach.work, ⟨hdetach.linked.pending,
            hdetach.linked.loose, hdetach.linked.looseNodup, hdetach.linked.nodup,
            hdetach.linked.unique, hdetach.linked.workNodup, hdetach.linked.apart⟩, nofun⟩
        refine ⟨due, ⟨hinv, fun _ _ => rfl, fun x _ hx => ?_, fun x hc => ?_⟩⟩
        · have hne : x ≠ t := fun heq => hx ⟨rfl, by rw [hwork, heq]; rfl⟩
          show (s.detachTimer t true).pending x = _
          rw [pending_detach, Function.update_of_ne hne]
        · have hx : t = x := by
            have hhead := hc.2
            rw [hwork] at hhead
            exact Option.some.inj hhead
          show (s.detachTimer t true).pending x = _
          rw [pending_detach, hx, Function.update_self]
      next => cases hstep
  | leave =>
    rw [timerStep] at hstep
    split at hstep
    next hc =>
      obtain rfl := Option.some.inj hstep
      exact ⟨due, .of_pc h nofun nofun rfl fun _ => hc.2.1⟩
    next => cases hstep

/-- The timers of every reachable state are on their ticks. -/
theorem reach_timerInv (hs : (timerSystem τ).Reach System.Always s) :
    ∃ N due, TimerInv N due s := by
  apply System.Reach.invariant _ _ hs
  · intro s hinit
    obtain ⟨-, hvec, hwork, hpending, -⟩ := hinit
    have hnot (t : τ) (n i : Nat) : t ∉ s.vec n i := by
      rw [hvec]
      exact List.not_mem_nil
    refine ⟨s.timerJiffies.toNat, fun _ => 0, ?_, fun n i t ht => absurd ht (hnot t n i), ?_, ?_,
      fun _ => hwork⟩
    · rw [BitVec.ofNat_toNat, BitVec.setWidth_eq]
    · rw [hwork]
      exact fun t ht => absurd ht List.not_mem_nil
    · refine ⟨fun t _ => ?_, fun t ht => absurd ht List.not_mem_nil, List.nodup_nil, fun n i => ?_,
        fun t n i _ _ ht => absurd ht (hnot t n i), ?_, fun t _ => hnot t⟩
      · rw [hpending, hwork]
        exact ⟨nofun, fun hl => hl.elim (fun hw => absurd hw List.not_mem_nil)
          fun ⟨n, i, ht⟩ => absurd ht (hnot t n i)⟩
      · rw [hvec]
        exact List.nodup_nil
      · rw [hwork]
        exact List.nodup_nil
  · rintro s a s' ⟨N, due, h⟩ - hstep
    obtain ⟨due', hspec⟩ := timerStep_spec h hstep
    exact ⟨_, due', hspec.inv⟩

/-! ### The calls of a timer in a run -/

/-- The number of iterations of `__run_timers` that a run begins. -/
def iterations (as : List (TimerAct τ)) : Nat := as.count .iterate

/-- The calls of a timer in a run: how many iterations have begun by then, and the number of the
tick that the last one processes. -/
def callTicks (t : τ) : Timers τ → List (TimerAct τ) → List (Nat × BitVec 32)
  | _, [] => []
  | s, a :: as =>
    match timerStep s a with
    | none => []
    | some s' =>
      let later := (callTicks t s' as).map fun c => (c.1 + if a = .iterate then 1 else 0, c.2)
      if Calls s a t then (0, s.timerJiffies - 1#32) :: later else later

omit [DecidableEq τ] in
/-- A pending timer is due at the tick that is being processed, or later. -/
theorem TimerInv.le_due (h : TimerInv N due s) (hp : s.pending t = true) :
    (t ∈ s.workList ∧ due t + 1 = N) ∨ N ≤ due t := by
  rcases (h.linked.pending t List.not_mem_nil).mp hp with hw | ⟨n, i, hv⟩
  · exact .inl ⟨hw, h.work t hw⟩
  · right
    have hplaced := h.placed n i t hv
    cases n with
    | zero => exact hplaced.1
    | succ n => exact Nat.le_trans hplaced.2.2.2.2.le (Wheel.blockStart_le _ _)

omit [DecidableEq τ] in
theorem TimerInv.of_calls (h : TimerInv N due s) (hc : Calls s a t) :
    s.pending t = true ∧ due t + 1 = N := by
  have hmem : t ∈ s.workList := List.mem_of_mem_head? hc.2
  exact ⟨(h.linked.pending t List.not_mem_nil).mpr (.inl hmem), h.work t hmem⟩

/-- A timer that is not pending is not called. -/
theorem callTicks_of_not_pending (h : TimerInv N due s)
    (hp : s.pending t = false) (has : Untouched t s as) : callTicks t s as = [] := by
  induction as generalizing N due s with
  | nil => rfl
  | cons a as ih =>
    rw [callTicks]
    have hnot : ¬ Calls s a t := by
      intro hc
      rw [(h.of_calls hc).1] at hp
      cases hp
    cases hstep : timerStep s a with
    | none => rfl
    | some u =>
      obtain ⟨due', hspec⟩ := timerStep_spec h hstep
      have hp' := (hspec.kept t has.1 hnot).trans hp
      dsimp only
      rw [if_neg hnot, ih hspec.inv hp' (has.2 u hstep)]
      rfl

/-- A pending timer is called in the iteration of the tick that it is due at, or still waits. -/
theorem callTicks_of_pending {s'' : Timers τ} (h : TimerInv N due s)
    (hp : s.pending t = true) (has : Untouched t s as)
    (hexec : (timerSystem τ).exec s as = some s'') :
    callTicks t s as = [(due t + 1 - N, BitVec.ofNat 32 (due t))] ∨
      callTicks t s as = [] ∧ s''.pending t = true ∧
        ∃ due', TimerInv (N + iterations as) due' s'' ∧ due' t = due t := by
  induction as generalizing N due s with
  | nil =>
    obtain rfl := Option.some.inj hexec
    exact .inr ⟨rfl, hp, due, h, rfl⟩
  | cons a as ih =>
    obtain ⟨u, hstep, hexec⟩ := Option.bind_eq_some_iff.mp hexec
    have hstep : timerStep s a = some u := hstep
    have has' := has.2 u hstep
    obtain ⟨due', hspec⟩ := timerStep_spec h hstep
    have hdue := hspec.due t has.1
    rw [callTicks, hstep]
    dsimp only
    by_cases hc : Calls s a t
    · -- the call, after which the timer is not pending
      left
      obtain ⟨-, hN⟩ := h.of_calls hc
      rw [if_pos hc, callTicks_of_not_pending hspec.inv (hspec.called t hc) has', h.tick, ← hN,
        BitVec.ofNat_add, BitVec.add_sub_cancel, Nat.sub_self]
      rfl
    · rw [if_neg hc]
      have hp' := (hspec.kept t has.1 hc).trans hp
      have hle : N + (if a = .iterate then 1 else 0) ≤ due t + 1 := by
        rcases hspec.inv.le_due hp' with ⟨-, heq⟩ | hle
        · omega
        · omega
      rcases ih hspec.inv hp' has' hexec with hcall | ⟨hnil, hpend, due'', hinv, hdue''⟩
      · left
        rw [hcall, hdue, List.map_cons, List.map_nil,
          show due t + 1 - (N + if a = .iterate then 1 else 0) + (if a = .iterate then 1 else 0) =
            due t + 1 - N by omega]
      · right
        refine ⟨by rw [hnil]; rfl, hpend, due'', ?_, hdue''.trans hdue⟩
        have hcount : N + iterations (a :: as) =
            N + (if a = .iterate then 1 else 0) + iterations as := by
          rw [iterations, iterations, List.count_cons]
          simp only [beq_iff_eq]
          omega
        rw [hcount]
        exact hinv

/-- In the run, the timer is called at most once, in the iteration that begins after `d` others and
processes `tick`; it has been called when that iteration has called all its timers. -/
structure CalledOnTick (t : τ) (d : Nat) (tick : BitVec 32) (s : Timers τ) (as : List (TimerAct τ))
    (s' : Timers τ) : Prop where
  only : callTicks t s as = [] ∨ callTicks t s as = [(d + 1, tick)]
  done : d + 1 < iterations as ∨ d + 1 = iterations as ∧ s'.workList = [] →
    callTicks t s as = [(d + 1, tick)]

theorem calledOnTick_of_due {s'' : Timers τ} {d : Nat}
    (h : TimerInv N due s) (hp : s.pending t = true) (hd : due t = N + d)
    (has : Untouched t s as) (hexec : (timerSystem τ).exec s as = some s'') :
    CalledOnTick t d (BitVec.ofNat 32 (N + d)) s as s'' := by
  have hsub : due t + 1 - N = d + 1 := by omega
  rcases callTicks_of_pending h hp has hexec with hcall | ⟨hnil, hpend, due', hinv, hdue⟩
  · rw [hsub, hd] at hcall
    exact ⟨.inr hcall, fun _ => hcall⟩
  · refine ⟨.inl hnil, fun hdone => ?_⟩
    -- the timer still waits, so the iteration is not over
    rcases hinv.le_due hpend with ⟨hwork, heq⟩ | hle
    · rcases hdone with hlt | ⟨-, hempty⟩
      · omega
      · rw [hempty] at hwork
        exact absurd hwork List.not_mem_nil
    · omega

/-- From any reachable state, in every run: a timer that is queued for one of the next `2 ^ 31`
ticks and then neither added, modified nor deleted is called once, in the iteration that processes
the tick `expires`; one that is queued for the past is called in the next iteration; one that is
deleted is not called. -/
theorem timers_fire_on_tick (hs : (timerSystem τ).Reach System.Always s)
    (hstep : timerStep s a = some s') {as : List (TimerAct τ)} {s'' : Timers τ}
    (has : Untouched t s' as) (hexec : (timerSystem τ).exec s' as = some s'') :
    (∀ e, Queues s a t e →
      ((e - s.timerJiffies).toNat < 2 ^ 31 →
        CalledOnTick t (e - s.timerJiffies).toNat e s' as s'') ∧
      (2 ^ 31 ≤ (e - s.timerJiffies).toNat → CalledOnTick t 0 s.timerJiffies s' as s'')) ∧
      (a = .delTimer t → callTicks t s' as = []) := by
  obtain ⟨N, due, h⟩ := reach_timerInv hs
  constructor
  · intro e hq
    have hs' := timerStep_queues hq hstep
    have hinv := h.modTimerLocked t e
    rw [← hs'] at hinv
    have hpend : s'.pending t = true := by
      rw [hs', pending_modTimerLocked, Function.update_self]
    have hcalled := calledOnTick_of_due hinv hpend (Function.update_self _ _ _) has hexec
    constructor
    · intro hlt
      have hdelay : timerDelay s.timerJiffies e = (e - s.timerJiffies).toNat :=
        if_pos ((toInt_nonneg_iff _).mpr hlt)
      rw [hdelay] at hcalled
      have htick : BitVec.ofNat 32 (N + (e - s.timerJiffies).toNat) = e := by
        rw [h.tick]
        exact ofNat_add_sub N e
      rw [htick] at hcalled
      exact hcalled
    · intro hge
      have hdelay : timerDelay s.timerJiffies e = 0 :=
        if_neg fun hpos => Nat.not_lt.mpr hge ((toInt_nonneg_iff _).mp hpos)
      rw [hdelay, Nat.add_zero, ← h.tick] at hcalled
      exact hcalled
  · intro ha
    rw [ha] at hstep
    obtain ⟨due', hspec⟩ := timerStep_spec h hstep
    apply callTicks_of_not_pending hspec.inv _ has
    rw [timerStep] at hstep
    split at hstep
    next => cases hstep
    next =>
      obtain rfl := Option.some.inj hstep
      rw [pending_delTimer, Function.update_self]

/-- The wheel before the tick `2 ^ 32 - 1`, with no timer. -/
def wheelBeforeWrap : Timers Unit where
  jiffies := 0xffffffff#32
  timerJiffies := 0xffffffff#32
  vec _ _ := []
  workList := []
  expires _ := 0
  pending _ := false
  pc := .out

/-- Three ticks are processed, and the timer of the last is called. -/
def threeTicks : List (TimerAct Unit) :=
  [.advance 2, .runTimers, .iterate, .iterate, .iterate, .call, .ret]

/-- A timer for tick 1 is called in the third iteration, after the count has wrapped. -/
theorem timers_fire_on_tick_wrap :
    ∃ s' s'', timerStep wheelBeforeWrap (.addTimer () 1#32) = some s' ∧
      (timerSystem Unit).exec s' threeTicks = some s'' ∧
      callTicks () s' threeTicks = [(3, 1#32)] := by
  have hreach : (timerSystem Unit).Reach System.Always wheelBeforeWrap :=
    .init ⟨rfl, fun _ _ => rfl, rfl, fun _ => rfl, rfl⟩
  have has : ∀ a ∈ threeTicks, ∀ s, ¬ Touches s a () := by simp [threeTicks, Touches]
  refine ⟨_, _, rfl, rfl, ?_⟩
  have hcalled := (timers_fire_on_tick hreach rfl (untouched_of_forall has) rfl).1 1#32 (.inl rfl)
  exact (hcalled.1 (by decide)).done (.inr ⟨rfl, rfl⟩)

end LinuxStm32.Kernel
