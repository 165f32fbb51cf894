import LinuxStm32.Base.System
import LinuxStm32.Drivers.Usb.Dwc2HcdQueue

/-!
# Conservation of the periodic bandwidth

What the microframe search takes from the controller it gives to the QH, and it finds time exactly
if a run of slots has enough of it. From that, the books that the schedules keep: the free time of
every slot, the claimed time of every QH, their sum, their number and the SOF interrupt. They are
wrong after a call that claims time for a QH whose transfers are then found to be too long, after
the deactivation of a QH that is in no schedule but has transfers left, and when the counter of
scheduled QHs overflows.
-/

namespace LinuxStm32.Drivers.Usb

open Base Finset

/-! ### The search for time -/

/-- `t` moved from the controller to the QH, slot by slot. -/
structure Uframes.Taken (f f' : Uframes) (t : Nat) : Prop where
  each : ∀ i, f'.hsotg i + f'.qh i = f.hsotg i + f.qh i
  total : ∑ i ∈ range 8, f'.qh i = ∑ i ∈ range 8, f.qh i + t

/-- No slot has more than its maximum. -/
def Uframes.Bounded (f : Uframes) : Prop := ∀ i < 8, f.hsotg i + f.qh i ≤ 100

namespace Uframes

variable {f f' f'' : Uframes} {t t' : Nat}

theorem Taken.bounded (h : f.Taken f' t) (hb : f.Bounded) : f'.Bounded := by
  intro i hi
  rw [h.each i]
  exact hb i hi

theorem Taken.trans (h : f.Taken f' t) (h' : f'.Taken f'' t') : f.Taken f'' (t + t') := by
  constructor
  · intro i
    rw [h'.each, h.each]
  · rw [h'.total, h.total]
    omega

/-- Taking `t` out of one slot. -/
theorem taken_update {i : Nat} (hi : i < 8) (ht : t ≤ f.hsotg i) :
    f.Taken ⟨Function.update f.hsotg i (f.hsotg i - t), Function.update f.qh i (f.qh i + t)⟩ t := by
  constructor
  · intro k
    by_cases hk : k = i
    · rw [hk]
      simp only [Function.update_self]
      omega
    · simp only [Function.update_of_ne hk]
  · have hmem : i ∈ range 8 := mem_range.mpr hi
    show ∑ k ∈ range 8, Function.update f.qh i (f.qh i + t) k = _
    rw [sum_update_of_mem hmem, ← sum_sdiff (singleton_subset_iff.mpr hmem), sum_singleton]
    omega

end Uframes

variable {f : Uframes}

private theorem sum_hsotg_le (hb : f.Bounded) {i j : Nat} (hj : j ≤ 8) :
    ∑ m ∈ Ico i j, f.hsotg m ≤ 800 := by
  have h : ∑ m ∈ Ico i j, f.hsotg m ≤ (Ico i j).card • 100 := by
    apply sum_le_card_nsmul
    intro m hm
    have hm8 := (mem_Ico.mp hm).2
    have := hb m (by omega)
    omega
  rw [Nat.card_Ico, smul_eq_mul] at h
  omega

/-- `dwc2_find_single_uframe` takes the time out of one slot if one has enough. -/
theorem findSingleUframe_spec (u n i : Nat) (hn : i + n = 8) (hb : f.Bounded) :
    (∃ k f', findSingleUframe u n i f = (some k, f') ∧ f.Taken f' u ∧
      ∃ m, i ≤ m ∧ m < 8 ∧ u ≤ f.hsotg m) ∨
    findSingleUframe u n i f = (none, f) ∧ ∀ m, i ≤ m → m < 8 → f.hsotg m < u := by
  induction n generalizing i with
  | zero =>
    right
    refine ⟨rfl, fun m him hm => ?_⟩
    omega
  | succ n ih =>
    rw [findSingleUframe]
    split
    next h =>
      left
      have hbi := hb i (by omega)
      rw [show u16 ((f.hsotg i : Int) - u) = f.hsotg i - u by rw [u16]; omega,
        show u16 ((f.qh i : Int) + u) = f.qh i + u by rw [u16]; omega]
      exact ⟨i, _, rfl, Uframes.taken_update (by omega) h, i, Nat.le_refl i, by omega, h⟩
    next h =>
      rcases ih (i + 1) (by omega) with ⟨k, f', he, ht, m, him, hm, hu⟩ | ⟨he, hno⟩
      · left
        exact ⟨k, f', he, ht, m, by omega, hm, hu⟩
      · right
        refine ⟨he, fun m him hm => ?_⟩
        by_cases hmi : m = i
        · rw [hmi]
          omega
        · exact hno m (by omega) hm

/-- The loop over `k` returns if the slots from `k` on have enough time. -/
theorem takeUframes_spec (n k t : Nat) (hn : k + n = 8) (hb : f.Bounded) (hpos : 0 < n)
    (ht : t ≤ ∑ m ∈ Ico k 8, f.hsotg m) :
    ∃ f', takeUframes n k t f = (true, f') ∧ f.Taken f' t := by
  induction n generalizing k t f with
  | zero => omega
  | succ n ih =>
    have hbk := hb k (by omega)
    rw [takeUframes]
    split
    next h =>
      rw [show u16 (-((t : Int) - f.hsotg k)) = f.hsotg k - t by rw [u16]; omega,
        show u16 ((f.qh k : Int) + (f.hsotg k + ((t : Int) - f.hsotg k))) = f.qh k + t by
          rw [u16]; omega]
      exact ⟨_, rfl, Uframes.taken_update (by omega) (by omega)⟩
    next h =>
      have htake := Uframes.taken_update (f := f) (show k < 8 by omega) (Nat.le_refl (f.hsotg k))
      rw [Nat.sub_self] at htake
      rw [show u16 ((f.qh k : Int) + f.hsotg k) = f.qh k + f.hsotg k by rw [u16]; omega,
        show (t : Int) - f.hsotg k = ((t - f.hsotg k : Nat) : Int) by omega]
      rw [sum_eq_sum_Ico_succ_bot (by omega)] at ht
      have hrest : ∑ m ∈ Ico (k + 1) 8, Function.update f.hsotg k 0 m =
          ∑ m ∈ Ico (k + 1) 8, f.hsotg m := by
        apply sum_congr rfl
        intro m hm
        have := (mem_Ico.mp hm).1
        exact Function.update_of_ne (by omega) _ _
      have hn0 : 0 < n := by
        rcases Nat.eq_zero_or_pos n with hz | hp
        · rw [show k + 1 = 8 by omega, Ico_self, sum_empty] at ht
          omega
        · exact hp
      obtain ⟨f', he, ht'⟩ := ih (k + 1) (t - f.hsotg k) (by omega) (htake.bounded hb) hn0
        (by rw [hrest]; omega)
      refine ⟨f', he, ?_⟩
      have htrans := htake.trans ht'
      rw [show f.hsotg k + (t - f.hsotg k) = t by omega] at htrans
      exact htrans

/-- The time that the search counts for the start slot `i` before it looks at `j`: the start slot
and the slots in between that are free as a whole. -/
def xtimeAt (f : Nat → Nat) (i j : Nat) : Nat :=
  ∑ m ∈ Ico i j with (m = i ∨ maxUframeUsecs m ≤ f m), f m

theorem xtimeAt_succ {f : Nat → Nat} {i j : Nat} (h : i < j) :
    xtimeAt f i (j + 1) = xtimeAt f i j + if maxUframeUsecs j ≤ f j then f j else 0 := by
  rw [xtimeAt, ← Finset.insert_Ico_right_eq_Ico_add_one (by omega), filter_insert]
  have hne : j ≠ i := by omega
  split
  next hc =>
    rw [sum_insert (by simp), if_pos (hc.resolve_left hne), xtimeAt]
    omega
  next hc =>
    rw [if_neg fun hm => hc (.inr hm), xtimeAt, Nat.add_zero]

/-- Some slots from `i` to `j`, not the last slot, have the time together. -/
def FitsFrom (f : Nat → Nat) (u i j : Nat) : Prop := j < 7 ∧ u ≤ xtimeAt f i j + f j

/-- The loop over `j`: the slots up to `j` have been looked at and `xtime` counted. -/
theorem findFromUframe_spec (u i n j x : Nat) (hi : i < j) (hn : j + n = 8) (hb : f.Bounded)
    (hx : x < u → x = xtimeAt f.hsotg i j) (hle : x ≤ ∑ m ∈ Ico i j, f.hsotg m) :
    (∃ f', findFromUframe u i n j x f = (true, f') ∧ f.Taken f' u ∧
      (u ≤ x ∧ j < 8 ∨ ∃ m, j ≤ m ∧ FitsFrom f.hsotg u i m)) ∨
    findFromUframe u i n j x f = (false, f) ∧
      ¬ (u ≤ x ∧ j < 8) ∧ ∀ m, j ≤ m → ¬ FitsFrom f.hsotg u i m := by
  induction n generalizing j x with
  | zero =>
    right
    refine ⟨rfl, by omega, fun m hm hfit => ?_⟩
    have := hfit.1
    omega
  | succ n ih =>
    have hsum : ∑ m ∈ Ico i (j + 1), f.hsotg m = ∑ m ∈ Ico i j, f.hsotg m + f.hsotg j :=
      sum_Ico_succ_top (by omega) _
    have hxt := xtimeAt_succ (f := f.hsotg) hi
    rw [findFromUframe]
    split
    next hskip =>
      have hxj := hx (by omega)
      rw [if_neg (by omega)] at hxt
      rcases ih (j + 1) x (by omega) (by omega) (fun _ => by omega) (by omega) with
        ⟨f', he, ht, hfit⟩ | ⟨he, hnot, hno⟩
      · left
        refine ⟨f', he, ht, .inr ?_⟩
        rcases hfit with hfit | ⟨m, hm, hfit⟩
        · omega
        · exact ⟨m, by omega, hfit⟩
      · right
        refine ⟨he, by omega, fun m hm hfit => ?_⟩
        by_cases hmj : m = j
        · rw [FitsFrom, hmj, ← hxj] at hfit
          omega
        · exact hno m (by omega) hfit
    next hskip =>
      by_cases hux : u ≤ x
      · -- enough time has been counted, and all of it is in the slots from `i` on
        left
        have hsplit : ∑ m ∈ Ico i j, f.hsotg m ≤ ∑ m ∈ Ico i 8, f.hsotg m :=
          sum_le_sum_of_subset (Ico_subset_Ico_right (by omega))
        obtain ⟨f', he, ht⟩ := takeUframes_spec (8 - i) i u (by omega) hb (by omega) (by omega)
        rw [if_pos hux, he]
        exact ⟨f', rfl, ht, .inl ⟨hux, by omega⟩⟩
      · have hxj := hx (by omega)
        have hsmall := sum_hsotg_le hb (i := i) (j := j + 1) (by omega)
        rw [if_neg hux]
        dsimp only
        rw [if_neg Bool.false_ne_true,
          show u16 ((x : Int) + f.hsotg j) = x + f.hsotg j by rw [u16]; omega]
        have hx' : x + f.hsotg j < u → x + f.hsotg j = xtimeAt f.hsotg i (j + 1) := by
          intro hlt
          rw [hxt, if_pos (by omega), hxj]
        rcases ih (j + 1) (x + f.hsotg j) (by omega) (by omega) hx' (by omega) with
          ⟨f', he, ht, hfit⟩ | ⟨he, hnot, hno⟩
        · left
          refine ⟨f', he, ht, .inr ?_⟩
          rcases hfit with ⟨hfit, hj⟩ | ⟨m, hm, hfit⟩
          · exact ⟨j, Nat.le_refl j, by omega, by omega⟩
          · exact ⟨m, by omega, hfit⟩
        · right
          refine ⟨he, by omega, fun m hm hfit => ?_⟩
          by_cases hmj : m = j
          · rw [FitsFrom, hmj, ← hxj] at hfit
            omega
          · exact hno m (by omega) hfit

/-- The loop over `i`. -/
theorem findMultiUframe_spec (u n i : Nat) (hn : i + n = 8) (hb : f.Bounded) :
    (∃ k f', findMultiUframe u n i f = (some k, f') ∧ f.Taken f' u ∧
      ∃ l, i ≤ l ∧ 0 < f.hsotg l ∧ ∃ m, l ≤ m ∧ FitsFrom f.hsotg u l m) ∨
    findMultiUframe u n i f = (none, f) ∧
      ∀ l, i ≤ l → 0 < f.hsotg l → ∀ m, l ≤ m → ¬ FitsFrom f.hsotg u l m := by
  induction n generalizing i with
  | zero =>
    right
    refine ⟨rfl, fun l hl _ m hm hfit => ?_⟩
    have := hfit.1
    omega
  | succ n ih =>
    have hself : xtimeAt f.hsotg i i = 0 := by rw [xtimeAt, Ico_self, filter_empty, sum_empty]
    have hone : f.hsotg i = xtimeAt f.hsotg i (i + 1) := by
      rw [xtimeAt, Nat.Ico_succ_singleton, filter_singleton, if_pos (.inl rfl), sum_singleton]
    have hrest (hstart : ∀ m, i ≤ m → 0 < f.hsotg i → ¬ FitsFrom f.hsotg u i m) :
        (∃ k f', findMultiUframe u n (i + 1) f = (some k, f') ∧ f.Taken f' u ∧
          ∃ l, i ≤ l ∧ 0 < f.hsotg l ∧ ∃ m, l ≤ m ∧ FitsFrom f.hsotg u l m) ∨
        findMultiUframe u n (i + 1) f = (none, f) ∧
          ∀ l, i ≤ l → 0 < f.hsotg l → ∀ m, l ≤ m → ¬ FitsFrom f.hsotg u l m := by
      rcases ih (i + 1) (by omega) with ⟨k, f', he, ht, l, hl, hfit⟩ | ⟨he, hno⟩
      · exact .inl ⟨k, f', he, ht, l, by omega, hfit⟩
      · refine .inr ⟨he, fun l hl hpos m hm => ?_⟩
        by_cases hli : l = i
        · rw [hli] at hpos hm ⊢
          exact hstart m hm hpos
        · exact hno l (by omega) hpos m hm
    rw [findMultiUframe]
    split
    next h0 => exact hrest fun m _ hpos => absurd hpos (by omega)
    next h0 =>
      rcases findFromUframe_spec u i n (i + 1) (f.hsotg i) (by omega) (by omega) hb (fun _ => hone)
          (by rw [Nat.Ico_succ_singleton, sum_singleton]) with
        ⟨f', he, ht, hfit⟩ | ⟨he, hnot, hno⟩
      · left
        rw [he]
        refine ⟨i, f', rfl, ht, i, Nat.le_refl i, by omega, ?_⟩
        rcases hfit with ⟨hu, hi⟩ | ⟨m, hm, hfit⟩
        · exact ⟨i, Nat.le_refl i, by omega, by omega⟩
        · exact ⟨m, by omega, hfit⟩
      · rw [he]
        apply hrest
        intro m hm _ hfit
        by_cases hmi : m = i
        · rw [FitsFrom, hmi, hself] at hfit
          omega
        · exact hno m (by omega) hfit

/-- There is time for a QH: for a high-speed device in one slot, else in a run of slots that begins
with a slot that is not full and ends before the last one. -/
def UframeFits (devSpeed : DevSpeed) (u : Nat) (f : Nat → Nat) : Prop :=
  if devSpeed = .high then ∃ m < 8, u ≤ f m
  else ∃ l, 0 < f l ∧ ∃ m, l ≤ m ∧ FitsFrom f u l m

/-- `dwc2_find_uframe` takes exactly the time of the QH, or there is no time and nothing is
changed. -/
theorem findUframe_spec (devSpeed : DevSpeed) (u : Nat) (hb : f.Bounded) :
    (UframeFits devSpeed u f.hsotg ∧
      ∃ k f', findUframe devSpeed u f = (some k, f') ∧ f.Taken f' u) ∨
    (¬ UframeFits devSpeed u f.hsotg ∧ findUframe devSpeed u f = (none, f)) := by
  rw [UframeFits, findUframe]
  split
  · rcases findSingleUframe_spec u 8 0 (by omega) hb with ⟨k, f', he, ht, m, _, hm, hu⟩ | ⟨he, hno⟩
    · exact .inl ⟨⟨m, hm, hu⟩, k, f', he, ht⟩
    · refine .inr ⟨?_, he⟩
      rintro ⟨m, hm, hu⟩
      have := hno m (Nat.zero_le m) hm
      omega
  · rcases findMultiUframe_spec u 8 0 (by omega) hb with ⟨k, f', he, ht, l, _, hfit⟩ | ⟨he, hno⟩
    · exact .inl ⟨⟨l, hfit⟩, k, f', he, ht⟩
    · refine .inr ⟨?_, he⟩
      rintro ⟨l, hpos, m, hm, hfit⟩
      exact hno l (Nat.zero_le l) hpos m hm hfit

/-! ### The books -/

namespace Hsotg

variable {ι : Type} [DecidableEq ι] {s s' : Hsotg ι} {q : ι} {l : Sched} {p : ι}

/-- The QH is a periodic one in a schedule. -/
def Scheduled (s : Hsotg ι) (q : ι) : Prop := (s.qh q).periodic = true ∧ s.Listed q

instance (s : Hsotg ι) : DecidablePred s.Scheduled := fun q =>
  inferInstanceAs (Decidable ((s.qh q).periodic = true ∧ s.Listed q))

/-- All time is accounted for, and so is every scheduled QH. -/
structure Bandwidth [Fintype ι] (s : Hsotg ι) : Prop where
  frames : ∀ i < 8, s.frameUsecs i + ∑ q, (s.qh q).frameUsecs i = maxUframeUsecs i
  claimed : ∀ q, s.Scheduled q → ∑ i ∈ range 8, (s.qh q).frameUsecs i = (s.qh q).usecs
  idle : ∀ q, ¬ s.Scheduled q → ∀ i < 8, (s.qh q).frameUsecs i = 0
  total : s.periodicUsecs = ∑ q with s.Scheduled q, (s.qh q).usecs
  count : s.periodicQhCount = #{q | s.Scheduled q}
  sof : s.gintmsk.getLsbD sofBit = true ↔ 0 < s.periodicQhCount

/-- Nothing the books speak of has changed. -/
structure SameBandwidth (s s' : Hsotg ι) : Prop where
  frames : ∀ i < 8, s'.frameUsecs i = s.frameUsecs i
  qhFrames : ∀ q, ∀ i < 8, (s'.qh q).frameUsecs i = (s.qh q).frameUsecs i
  usecs : ∀ q, (s'.qh q).usecs = (s.qh q).usecs
  scheduled : ∀ q, s'.Scheduled q ↔ s.Scheduled q
  total : s'.periodicUsecs = s.periodicUsecs
  count : s'.periodicQhCount = s.periodicQhCount
  sof : s'.gintmsk.getLsbD sofBit = s.gintmsk.getLsbD sofBit
  params : s'.coreParams = s.coreParams

theorem Bandwidth.congr [Fintype ι] (h : s.Bandwidth) (hs : SameBandwidth s s') :
    s'.Bandwidth where
  frames i hi := by
    rw [hs.frames i hi, sum_congr rfl fun q _ => hs.qhFrames q i hi]
    exact h.frames i hi
  claimed q hq := by
    rw [hs.usecs, sum_congr rfl fun i hi => hs.qhFrames q i (mem_range.mp hi)]
    exact h.claimed q ((hs.scheduled q).mp hq)
  idle q hq i hi := by
    rw [hs.qhFrames q i hi]
    exact h.idle q (fun hs' => hq ((hs.scheduled q).mpr hs')) i hi
  total := by
    rw [hs.total, h.total, filter_congr fun q _ => hs.scheduled q]
    exact sum_congr rfl fun q _ => (hs.usecs q).symm
  count := by rw [hs.count, h.count, filter_congr fun q _ => hs.scheduled q]
  sof := by rw [hs.sof, hs.count, h.sof]

private theorem sum_swap [Fintype ι] {f g : ι → Nat} (h : ∀ p, p ≠ q → g p = f p) :
    ∑ p, g p + f q = ∑ p, f p + g q := by
  have hrest : ∑ p ∈ univ.erase q, g p = ∑ p ∈ univ.erase q, f p :=
    sum_congr rfl fun p hp => h p (ne_of_mem_erase hp)
  rw [← add_sum_erase _ g (mem_univ q), ← add_sum_erase _ f (mem_univ q), hrest]
  omega

theorem maxUframeUsecs_le (i : Nat) : maxUframeUsecs i ≤ 100 := by
  rw [maxUframeUsecs, List.getD_eq_getElem?_getD]
  match i with
  | 0 | 1 | 2 | 3 | 4 | 5 | 6 | 7 => decide
  | i + 8 => exact Nat.zero_le 100

theorem Bandwidth.bounded [Fintype ι] (h : s.Bandwidth) (q : ι) :
    Uframes.Bounded ⟨s.frameUsecs, (s.qh q).frameUsecs⟩ := by
  intro i hi
  have hsum := h.frames i hi
  have hone := single_le_sum (fun p _ => Nat.zero_le ((s.qh p).frameUsecs i)) (mem_univ q)
  have hmax := maxUframeUsecs_le i
  show s.frameUsecs i + (s.qh q).frameUsecs i ≤ 100
  omega

/-- The scheduled QHs have all their time inside the microframes. -/
theorem Bandwidth.total_le [Fintype ι] (h : s.Bandwidth) : s.periodicUsecs ≤ 800 := by
  have hswap : ∑ q, ∑ i ∈ range 8, (s.qh q).frameUsecs i ≤ 800 := by
    rw [sum_comm]
    have hslot : ∀ i ∈ range 8, ∑ q, (s.qh q).frameUsecs i ≤ 100 := by
      intro i hi
      have hsum := h.frames i (mem_range.mp hi)
      have hmax := maxUframeUsecs_le i
      omega
    exact sum_le_card_nsmul (range 8) _ 100 hslot
  rw [h.total]
  calc ∑ q with s.Scheduled q, (s.qh q).usecs
      = ∑ q with s.Scheduled q, ∑ i ∈ range 8, (s.qh q).frameUsecs i :=
        sum_congr rfl fun q hq => (h.claimed q (mem_filter.mp hq).2).symm
    _ ≤ ∑ q, ∑ i ∈ range 8, (s.qh q).frameUsecs i := sum_le_sum_of_subset (filter_subset _ _)
    _ ≤ 800 := hswap

/-! ### What the list operations do -/

omit [DecidableEq ι] in
theorem mem_listAddTail {l k : Sched} :
    p ∈ (s.listAddTail q l).sched k ↔ k = l ∧ p = q ∨ p ∈ s.sched k := by
  show p ∈ Function.update s.sched l (s.sched l ++ [q]) k ↔ _
  by_cases hk : k = l
  · rw [hk, Function.update_self, List.mem_append, List.mem_singleton, or_comm,
      eq_self_iff_true, true_and]
  · rw [Function.update_of_ne hk, or_iff_right fun h => hk h.1]

theorem mem_listDelInit {k : Sched} :
    p ∈ (s.listDelInit q).sched k ↔ p ≠ q ∧ p ∈ s.sched k := by
  show p ∈ (s.sched k).filter (· ≠ q) ↔ _
  rw [List.mem_filter, decide_eq_true_eq, and_comm]

theorem mem_listMove {l k : Sched} :
    p ∈ (s.listMove q l).sched k ↔ k = l ∧ p = q ∨ p ≠ q ∧ p ∈ s.sched k := by
  rw [← mem_listDelInit]
  show p ∈ Function.update (s.listDelInit q).sched l (q :: (s.listDelInit q).sched l) k ↔ _
  by_cases hk : k = l
  · rw [hk, Function.update_self, List.mem_cons, eq_self_iff_true, true_and]
  · rw [Function.update_of_ne hk, or_iff_right fun h => hk h.1]

omit [DecidableEq ι] in
theorem listed_listAddTail :
    (s.listAddTail q l).Listed p ↔ p = q ∨ s.Listed p := by
  simp only [Listed, mem_listAddTail, exists_or, exists_and_right, exists_eq, true_and]

theorem listed_listDelInit : (s.listDelInit q).Listed p ↔ p ≠ q ∧ s.Listed p := by
  simp only [Listed, mem_listDelInit, exists_and_left]

theorem listed_listMove :
    (s.listMove q l).Listed p ↔ p = q ∨ s.Listed p := by
  simp only [Listed, mem_listMove, exists_or, exists_and_right, exists_and_left, exists_eq,
    true_and]
  by_cases hpq : p = q
  · simp only [hpq, true_or]
  · simp only [hpq, false_or, ne_eq, not_false_eq_true, true_and]

/-! ### Adding a QH -/

/-- The QH is periodic and in no schedule. -/
def Fresh (s : Hsotg ι) (q : ι) : Prop := (s.qh q).periodic = true ∧ ¬ s.Listed q

/-- There is time for the QH. -/
def Fits (s : Hsotg ι) (q : ι) : Prop :=
  UframeFits (s.qh q).devSpeed (s.qh q).usecs s.frameUsecs

/-- A transfer of the QH in one microframe is not too long for a channel. -/
def XferFits (s : Hsotg ι) (q : ι) : Prop :=
  maxPacket (s.qh q).maxp * hbMult (s.qh q).maxp ≤ s.coreParams.maxTransferSize

/-- Time has been moved between the controller and `q`. -/
structure Moved (s s' : Hsotg ι) (q : ι) : Prop where
  each : ∀ i < 8, s'.frameUsecs i + (s'.qh q).frameUsecs i =
    s.frameUsecs i + (s.qh q).frameUsecs i
  others : ∀ p, p ≠ q → s'.qh p = s.qh p
  usecs : (s'.qh q).usecs = (s.qh q).usecs
  periodic : (s'.qh q).periodic = (s.qh q).periodic
  params : s'.coreParams = s.coreParams

/-- The time was claimed, but the QH is not scheduled. -/
structure Leaked (s s' : Hsotg ι) (q : ι) : Prop extends Moved s s' q where
  own : ∑ i ∈ range 8, (s'.qh q).frameUsecs i =
    ∑ i ∈ range 8, (s.qh q).frameUsecs i + (s.qh q).usecs
  listed : ∀ p, s'.Listed p ↔ s.Listed p
  total : s'.periodicUsecs = s.periodicUsecs
  count : s'.periodicQhCount = s.periodicQhCount
  gintmsk : s'.gintmsk = s.gintmsk

/-- The time was claimed, and the QH is scheduled. -/
structure Claimed (s s' : Hsotg ι) (q : ι) : Prop extends Moved s s' q where
  own : ∑ i ∈ range 8, (s'.qh q).frameUsecs i =
    ∑ i ∈ range 8, (s.qh q).frameUsecs i + (s.qh q).usecs
  listed : ∀ p, s'.Listed p ↔ p = q ∨ s.Listed p
  total : s'.periodicUsecs = u16 (s.periodicUsecs + (s.qh q).usecs)
  count : s'.periodicQhCount = u16 (s.periodicQhCount + 1)
  gintmsk : s'.gintmsk = if s.periodicQhCount = 0 then setBit s.gintmsk sofBit else s.gintmsk

/-- Everything `dwc2_hcd_qh_add` can do with the microframe scheduler. -/
inductive AddCase (s : Hsotg ι) (q : ι) : Int → Hsotg ι → Prop
  | nop {r : Int} {t : Hsotg ι} (hc : ¬ s.Fresh q ∨ ¬ s.Fits q) (hs : SameBandwidth s t) :
      AddCase s q r t
  | leaked {r : Int} {t : Hsotg ι} (hfresh : s.Fresh q) (hfits : s.Fits q) (hx : ¬ s.XferFits q)
      (hr : r ≠ 0) (hl : Leaked s t q) : AddCase s q r t
  | claimed {t : Hsotg ι} (hfresh : s.Fresh q) (hfits : s.Fits q) (hx : s.XferFits q)
      (hc : Claimed s t q) : AddCase s q 0 t

omit [DecidableEq ι] in
theorem SameBandwidth.refl (s : Hsotg ι) : SameBandwidth s s :=
  ⟨fun _ _ => rfl, fun _ _ _ => rfl, fun _ => rfl, fun _ => Iff.rfl, rfl, rfl, rfl, rfl⟩

omit [DecidableEq ι] in
/-- Only the schedules of a non-periodic QH have changed. -/
private theorem sameBandwidth_of_nonPeriodic {sched : Sched → List ι} {ptr : Option ι}
    (hq : (s.qh q).periodic = false)
    (hl : ∀ p, p ≠ q → ((∃ l, p ∈ sched l) ↔ s.Listed p)) :
    SameBandwidth s { s with sched := sched, nonPeriodicQhPtr := ptr } := by
  refine ⟨fun _ _ => rfl, fun _ _ _ => rfl, fun _ => rfl, fun p => ?_, rfl, rfl, rfl, rfl⟩
  apply and_congr_right
  intro hp
  apply hl
  rintro rfl
  rw [hq] at hp
  cases hp

/-- `dwc2_find_uframe` moves the time of the QH or changes nothing. -/
theorem claimUframe_spec (hb : Uframes.Bounded ⟨s.frameUsecs, (s.qh q).frameUsecs⟩) :
    (s.Fits q ∧ (s.claimUframe q).1 = 0 ∧ Leaked s (s.claimUframe q).2 q ∧
      ((s.claimUframe q).2.qh q).maxp = (s.qh q).maxp) ∨
    (¬ s.Fits q ∧ (s.claimUframe q).1 = -enospc ∧ SameBandwidth s (s.claimUframe q).2) := by
  rw [claimUframe]
  dsimp only
  rcases findUframe_spec (s.qh q).devSpeed (s.qh q).usecs hb with ⟨hfit, k, f', he, ht⟩ | ⟨hfit, he⟩
  · left
    rw [he]
    refine ⟨hfit, rfl, ?_, by simp only [setQh, Function.update_self]⟩
    refine ⟨⟨?_, fun p hp => Function.update_of_ne hp _ _, ?_, ?_, rfl⟩, ?_, fun _ => Iff.rfl, rfl,
      rfl, rfl⟩
    · intro i _
      simp only [setQh, Function.update_self]
      exact ht.each i
    · simp only [setQh, Function.update_self]
    · simp only [setQh, Function.update_self, Qh.periodic]
    · simp only [setQh, Function.update_self]
      exact ht.total
  · right
    rw [he]
    refine ⟨hfit, rfl, ?_⟩
    have hself : Function.update s.qh q { s.qh q with frameUsecs := (s.qh q).frameUsecs } = s.qh :=
      Function.update_eq_self q s.qh
    simp only [setQh, hself]
    exact .refl s

omit [DecidableEq ι] in
/-- Scheduling after the time was claimed. -/
private theorem claimed_of_leaked {t : Hsotg ι} {ch : Int} {m : BitVec 32}
    (h : Leaked s t q)
    (hm : m = if t.periodicQhCount = 0 then setBit t.gintmsk sofBit else t.gintmsk) :
    Claimed s { t.listAddTail q l with
      periodicChannels := ch
      periodicUsecs := u16 (t.periodicUsecs + (t.qh q).usecs)
      periodicQhCount := u16 (t.periodicQhCount + 1)
      gintmsk := m } q where
  toMoved := ⟨h.each, h.others, h.usecs, h.periodic, h.params⟩
  own := h.own
  listed p := by
    rw [← h.listed]
    exact listed_listAddTail
  total := by rw [← h.total, ← h.usecs]
  count := by rw [← h.count]
  gintmsk := by rw [← h.count, ← h.gintmsk, hm]

theorem qhAdd_of_not_fresh (h : ¬ s.Fresh q) : SameBandwidth s (s.qhAdd q).2 := by
  rw [qhAdd]
  split
  next hl => exact .refl s
  next hl =>
    have hp : (s.qh q).periodic = false := by
      rw [← Bool.not_eq_true]
      exact fun hp => h ⟨hp, hl⟩
    rw [if_pos hp]
    apply sameBandwidth_of_nonPeriodic hp
    intro p hpq
    exact listed_listAddTail.trans (or_iff_right hpq)

/-- How `dwc2_schedule_periodic` goes on once time was claimed. -/
private theorem schedulePeriodic_of_claim {t : Hsotg ι} (hu : s.coreParams.uframeSched = true)
    (hclaim : s.claimUframe q = (0, t)) (hparams : t.coreParams = s.coreParams)
    (hmaxp : (t.qh q).maxp = (s.qh q).maxp) :
    (s.XferFits q → ∃ l, s.schedulePeriodic q = (0, { t.listAddTail q l with
        periodicUsecs := u16 (t.periodicUsecs + (t.qh q).usecs) })) ∧
      (¬ s.XferFits q → s.schedulePeriodic q = (-enospc, t)) := by
  unfold schedulePeriodic
  rw [if_pos hu, hclaim]
  dsimp only
  constructor
  · intro hx
    have hcheck : t.checkMaxXferSize q = 0 := by
      rw [checkMaxXferSize, hparams, hmaxp, if_neg (Nat.not_lt.mpr hx)]
    have htu (l : Sched) : (t.listAddTail q l).coreParams.uframeSched = true := by
      rw [← hu, ← hparams, listAddTail]
    rw [hcheck, if_neg (not_not.mpr rfl), if_neg (not_not.mpr rfl), if_pos (htu _)]
    exact ⟨_, rfl⟩
  · intro hx
    have hcheck : t.checkMaxXferSize q = -enospc := by
      rw [checkMaxXferSize, hparams, hmaxp, if_pos (Nat.lt_of_not_le hx)]
    rw [hcheck, if_neg (not_not.mpr rfl), if_pos (by decide)]

/-- `dwc2_hcd_qh_add` returns the error of `dwc2_schedule_periodic`, or counts the QH. -/
private theorem qhAdd_of_schedule {t : Hsotg ι} {status : Int} (hfresh : s.Fresh q)
    (hsched : s.schedulePeriodic q = (status, t)) :
    s.qhAdd q = if status ≠ 0 then (status, t) else (0, { t with
      gintmsk := if t.periodicQhCount = 0 then setBit t.gintmsk sofBit else t.gintmsk
      periodicQhCount := u16 (t.periodicQhCount + 1) }) := by
  obtain ⟨hp, hl⟩ := hfresh
  rw [qhAdd, if_neg hl, if_neg (by rw [hp]; exact Bool.false_ne_true.symm), hsched]
  dsimp only
  split
  · rfl
  · split <;> rfl

theorem qhAdd_case (hu : s.coreParams.uframeSched = true)
    (hb : Uframes.Bounded ⟨s.frameUsecs, (s.qh q).frameUsecs⟩) :
    AddCase s q (s.qhAdd q).1 (s.qhAdd q).2 := by
  by_cases hfresh : s.Fresh q
  swap
  · exact .nop (.inl hfresh) (qhAdd_of_not_fresh hfresh)
  have herr : -enospc ≠ 0 := by decide
  rcases hclaim : s.claimUframe q with ⟨status, t⟩
  have hspec := claimUframe_spec hb
  rw [hclaim] at hspec
  rcases hspec with ⟨hfit, rfl, hleak, hmaxp⟩ | ⟨hfit, rfl, hsame⟩
  · have hsched := schedulePeriodic_of_claim hu hclaim hleak.params hmaxp
    by_cases hx : s.XferFits q
    · obtain ⟨l, hl⟩ := hsched.1 hx
      rw [qhAdd_of_schedule hfresh hl, if_neg (not_not.mpr rfl)]
      exact .claimed hfresh hfit hx (claimed_of_leaked hleak rfl)
    · rw [qhAdd_of_schedule hfresh (hsched.2 hx), if_pos herr]
      exact .leaked hfresh hfit hx herr hleak
  · have hsched : s.schedulePeriodic q = (-enospc, t) := by
      unfold schedulePeriodic
      rw [if_pos hu, hclaim]
      exact if_pos herr
    rw [qhAdd_of_schedule hfresh hsched, if_pos herr]
    exact .nop (.inr hfit) hsame

/-! ### Removing a QH -/

/-- The time of the QH was given back, and it is no longer scheduled. -/
structure Released (s s' : Hsotg ι) (q : ι) : Prop extends Moved s s' q where
  own : ∀ i < 8, (s'.qh q).frameUsecs i = 0
  listed : ∀ p, s'.Listed p ↔ p ≠ q ∧ s.Listed p
  total : s'.periodicUsecs = u16 (s.periodicUsecs - (s.qh q).usecs)
  count : s'.periodicQhCount = u16 (s.periodicQhCount - 1)
  gintmsk : s'.gintmsk = if s'.periodicQhCount = 0 then clearBit s.gintmsk sofBit else s.gintmsk

private theorem released_of_deschedule {m : BitVec 32} (hu : s.coreParams.uframeSched = true)
    (hb : Uframes.Bounded ⟨s.frameUsecs, (s.qh q).frameUsecs⟩)
    (hm : m = if u16 (s.periodicQhCount - 1) = 0 then clearBit s.gintmsk sofBit else s.gintmsk) :
    Released s { s.deschedulePeriodic q with
      periodicQhCount := u16 (s.periodicQhCount - 1)
      gintmsk := m } q := by
  rw [deschedulePeriodic]
  dsimp only
  rw [if_pos (show (s.listDelInit q).coreParams.uframeSched = true from hu)]
  refine ⟨⟨?_, fun p hp => Function.update_of_ne hp _ _, ?_, ?_, rfl⟩, ?_,
    fun p => listed_listDelInit, rfl, rfl, hm⟩
  · intro i hi
    have hbi : s.frameUsecs i + (s.qh q).frameUsecs i ≤ 100 := hb i hi
    simp only [setQh, listDelInit, Function.update_self, if_pos hi]
    rw [u16]
    omega
  · simp only [setQh, listDelInit, Function.update_self]
  · simp only [setQh, listDelInit, Function.update_self, Qh.periodic]
  · intro i hi
    simp only [setQh, Function.update_self, if_pos hi]

theorem qhUnlink_of_scheduled (hu : s.coreParams.uframeSched = true)
    (hb : Uframes.Bounded ⟨s.frameUsecs, (s.qh q).frameUsecs⟩) (hq : s.Scheduled q) :
    Released s (s.qhUnlink q) q := by
  have hdes : (s.deschedulePeriodic q).periodicQhCount = s.periodicQhCount ∧
      (s.deschedulePeriodic q).gintmsk = s.gintmsk := by
    rw [deschedulePeriodic]
    dsimp only
    split
    · exact ⟨rfl, rfl⟩
    · exact ⟨rfl, rfl⟩
  have hp : ¬ (s.qh q).periodic = false := by rw [hq.1]; exact Bool.false_ne_true.symm
  rw [qhUnlink, if_neg (not_not.mpr hq.2), if_neg hp]
  dsimp only
  rw [hdes.1, hdes.2]
  split
  next h0 => exact released_of_deschedule hu hb (if_pos h0).symm
  next h0 => exact released_of_deschedule hu hb (if_neg h0).symm

theorem qhUnlink_of_not_scheduled (h : ¬ s.Scheduled q) : SameBandwidth s (s.qhUnlink q) := by
  rw [qhUnlink]
  split
  next hl => exact .refl s
  next hl =>
    rw [not_not] at hl
    have hp : (s.qh q).periodic = false := by
      rw [← Bool.not_eq_true]
      exact fun hp => h ⟨hp, hl⟩
    have hdel : ∀ p, p ≠ q → ((∃ l, p ∈ (s.listDelInit q).sched l) ↔ s.Listed p) := fun p hpq =>
      listed_listDelInit.trans (and_iff_right hpq)
    rw [if_pos hp]
    dsimp only
    split
    · exact sameBandwidth_of_nonPeriodic hp hdel
    · exact sameBandwidth_of_nonPeriodic hp hdel

theorem qhUnlink_qh (hp : (s.qh q).periodic = false) : (s.qhUnlink q).qh = s.qh := by
  rw [qhUnlink]
  split
  · rfl
  · dsimp only
    split
    · rfl
    · rfl

/-! ### The books after a call -/

omit [DecidableEq ι] in
theorem Fresh.not_scheduled (h : s.Fresh q) : ¬ s.Scheduled q := fun hs => h.2 hs.2

namespace Moved

theorem usecs_eq (h : Moved s s' q) (p : ι) : (s'.qh p).usecs = (s.qh p).usecs := by
  by_cases hp : p = q
  · rw [hp, h.usecs]
  · rw [h.others p hp]

theorem periodic_eq (h : Moved s s' q) (p : ι) : (s'.qh p).periodic = (s.qh p).periodic := by
  by_cases hp : p = q
  · rw [hp, h.periodic]
  · rw [h.others p hp]

theorem frames [Fintype ι] (h : Moved s s' q) (hb : s.Bandwidth) {i : Nat} (hi : i < 8) :
    s'.frameUsecs i + ∑ p, (s'.qh p).frameUsecs i = maxUframeUsecs i := by
  have hsum := sum_swap (f := fun p => (s.qh p).frameUsecs i) (g := fun p => (s'.qh p).frameUsecs i)
    fun p hp => by rw [h.others p hp]
  have heach := h.each i hi
  have hold := hb.frames i hi
  omega

end Moved

private theorem sum_frameUsecs_idle [Fintype ι] (hb : s.Bandwidth) (hq : ¬ s.Scheduled q) :
    ∑ i ∈ range 8, (s.qh q).frameUsecs i = 0 :=
  sum_eq_zero fun i hi => hb.idle q hq i (mem_range.mp hi)

namespace Claimed

theorem scheduled_iff (h : Claimed s s' q) (hf : s.Fresh q) (p : ι) :
    s'.Scheduled p ↔ p = q ∨ s.Scheduled p := by
  rw [Scheduled, Scheduled, h.listed, h.periodic_eq]
  by_cases hp : p = q
  · simp only [hp, hf.1, true_or, and_self]
  · simp only [hp, false_or]

theorem filter_eq [Fintype ι] (h : Claimed s s' q) (hf : s.Fresh q) :
    univ.filter (fun p => s'.Scheduled p) = insert q (univ.filter fun p => s.Scheduled p) := by
  ext p
  simp only [mem_filter, mem_univ, true_and, mem_insert, h.scheduled_iff hf]

theorem usecs_le [Fintype ι] (h : Claimed s s' q) (hb : s.Bandwidth) : (s.qh q).usecs ≤ 800 := by
  have hown := h.own
  have hslot : ∑ i ∈ range 8, (s'.qh q).frameUsecs i ≤ 800 := by
    apply sum_le_card_nsmul (range 8) _ 100
    intro i hi
    have heach := h.each i (mem_range.mp hi)
    have hmax : s.frameUsecs i + (s.qh q).frameUsecs i ≤ 100 := hb.bounded q i (mem_range.mp hi)
    omega
  omega

/-- The books are right after a QH is scheduled exactly if the counter does not overflow. -/
theorem bandwidth_iff [Fintype ι] (h : Claimed s s' q) (hb : s.Bandwidth) (hf : s.Fresh q)
    (hc : s.periodicQhCount < 65536) : s'.Bandwidth ↔ s.periodicQhCount ≠ 65535 := by
  have hnot := hf.not_scheduled
  have hmem : q ∉ univ.filter fun p => s.Scheduled p := by
    simp only [mem_filter, hnot, and_false, not_false_eq_true]
  have hcard : #{p | s'.Scheduled p} = s.periodicQhCount + 1 := by
    rw [h.filter_eq hf, card_insert_of_notMem hmem, hb.count]
  constructor
  · intro hb' he
    have hcount := hb'.count
    rw [hcard, h.count, he] at hcount
    exact absurd hcount (by decide)
  · intro hne
    have hcount : s'.periodicQhCount = s.periodicQhCount + 1 := by
      rw [h.count, u16]
      omega
    refine ⟨fun i hi => h.frames hb hi, ?_, ?_, ?_, ?_, ?_⟩
    · intro p hp
      rcases (h.scheduled_iff hf p).mp hp with rfl | hold
      · rw [h.own, sum_frameUsecs_idle hb hnot, h.usecs, Nat.zero_add]
      · have hpq : p ≠ q := fun he => hnot (he ▸ hold)
        rw [h.others p hpq]
        exact hb.claimed p hold
    · intro p hp
      rw [h.scheduled_iff hf, not_or] at hp
      rw [h.others p hp.1]
      exact hb.idle p hp.2
    · have htotal := hb.total_le
      have husecs := h.usecs_le hb
      rw [h.total, h.filter_eq hf, sum_insert hmem, sum_congr rfl fun p _ => h.usecs_eq p,
        h.usecs, ← hb.total]
      rw [u16]
      omega
    · rw [hcount, hcard]
    · rw [h.gintmsk, hcount]
      split
      · simp only [setBit_bit (show sofBit < 32 by decide), decide_true, Bool.or_true,
          Nat.zero_lt_succ]
      next h0 =>
        rw [hb.sof]
        omega

end Claimed

namespace Leaked

theorem scheduled_iff (h : Leaked s s' q) (p : ι) : s'.Scheduled p ↔ s.Scheduled p := by
  rw [Scheduled, Scheduled, h.listed, h.periodic_eq]

/-- Time that was claimed for a QH that is not scheduled is missing. -/
theorem not_bandwidth [Fintype ι] (h : Leaked s s' q) (hf : s.Fresh q)
    (hu : (s.qh q).usecs ≠ 0) : ¬ s'.Bandwidth := by
  intro hb'
  have hown := h.own
  rw [sum_frameUsecs_idle hb' fun hs => hf.not_scheduled ((h.scheduled_iff q).mp hs)] at hown
  omega

theorem sameBandwidth [Fintype ι] (h : Leaked s s' q) (hb : s.Bandwidth) (hf : s.Fresh q)
    (hu : (s.qh q).usecs = 0) : SameBandwidth s s' := by
  have hown := h.own
  rw [sum_frameUsecs_idle hb hf.not_scheduled, hu, Nat.zero_add, sum_eq_zero_iff] at hown
  have hq : ∀ i < 8, (s'.qh q).frameUsecs i = (s.qh q).frameUsecs i := by
    intro i hi
    rw [hown i (mem_range.mpr hi), hb.idle q hf.not_scheduled i hi]
  refine ⟨?_, ?_, h.usecs_eq, h.scheduled_iff, h.total, h.count, by rw [h.gintmsk],
    h.params⟩
  · intro i hi
    have heach := h.each i hi
    rw [hq i hi] at heach
    omega
  · intro p i hi
    by_cases hp : p = q
    · rw [hp]
      exact hq i hi
    · rw [h.others p hp]

end Leaked

namespace Released

theorem scheduled_iff (h : Released s s' q) (p : ι) :
    s'.Scheduled p ↔ p ≠ q ∧ s.Scheduled p := by
  rw [Scheduled, Scheduled, h.listed, h.periodic_eq, and_left_comm]

theorem filter_eq [Fintype ι] (h : Released s s' q) (hq : s.Scheduled q) :
    univ.filter (fun p => s.Scheduled p) = insert q (univ.filter fun p => s'.Scheduled p) := by
  ext p
  simp only [mem_filter, mem_univ, true_and, mem_insert, h.scheduled_iff]
  by_cases hp : p = q
  · simp only [hp, hq, true_or]
  · simp only [hp, false_or, ne_eq, not_false_eq_true, true_and]

theorem bandwidth [Fintype ι] (h : Released s s' q) (hb : s.Bandwidth) (hq : s.Scheduled q)
    (hc : s.periodicQhCount < 65536) : s'.Bandwidth := by
  have hmem : q ∉ univ.filter fun p => s'.Scheduled p := by
    simp only [mem_filter, h.scheduled_iff, ne_eq, not_true_eq_false, false_and, and_false,
      not_false_eq_true]
  have hcard : s.periodicQhCount = #{p | s'.Scheduled p} + 1 := by
    rw [hb.count, h.filter_eq hq, card_insert_of_notMem hmem]
  have hcount : s'.periodicQhCount = s.periodicQhCount - 1 := by
    rw [h.count, u16]
    omega
  refine ⟨fun i hi => h.frames hb hi, ?_, ?_, ?_, ?_, ?_⟩
  · intro p hp
    obtain ⟨hpq, hold⟩ := (h.scheduled_iff p).mp hp
    rw [h.others p hpq]
    exact hb.claimed p hold
  · intro p hp
    by_cases hpq : p = q
    · rw [hpq]
      exact h.own
    · rw [h.others p hpq]
      exact hb.idle p fun hold => hp ((h.scheduled_iff p).mpr ⟨hpq, hold⟩)
  · have htotal := hb.total
    have hle := hb.total_le
    rw [h.filter_eq hq, sum_insert hmem] at htotal
    rw [h.total, sum_congr rfl fun p _ => h.usecs_eq p, u16]
    omega
  · rw [hcount, hcard, Nat.add_sub_cancel]
  · rw [h.gintmsk]
    split
    next h0 =>
      simp only [clearBit_bit, decide_true, Bool.not_true, Bool.and_false, Bool.false_eq_true, h0,
        Nat.lt_irrefl]
    next h0 =>
      rw [hb.sof]
      omega

end Released

/-! ### Giving a QH back -/

omit [DecidableEq ι] in
private theorem nextFrame_keeps (qh : Qh) (frameNumber : Nat) (split : Bool) :
    (qh.nextFrame frameNumber split).frameUsecs = qh.frameUsecs ∧
      (qh.nextFrame frameNumber split).usecs = qh.usecs ∧
      (qh.nextFrame frameNumber split).epType = qh.epType ∧
      (qh.nextFrame frameNumber split).qtdList = qh.qtdList := by
  rw [Qh.nextFrame]
  split
  · rw [Qh.schedPeriodicSplit]
    split
    · dsimp only
      split
      · exact ⟨rfl, rfl, rfl, rfl⟩
      · exact ⟨rfl, rfl, rfl, rfl⟩
    · exact ⟨rfl, rfl, rfl, rfl⟩
  · exact ⟨rfl, rfl, rfl, rfl⟩

/-- A QH is stored whose time and type are the same. -/
private theorem sameBandwidth_setQh {qh : Qh} (hf : qh.frameUsecs = (s.qh q).frameUsecs)
    (hu : qh.usecs = (s.qh q).usecs) (ht : qh.epType = (s.qh q).epType) :
    SameBandwidth s (s.setQh q qh) := by
  have hqh (p : ι) : ((s.setQh q qh).qh p).frameUsecs = (s.qh p).frameUsecs ∧
      ((s.setQh q qh).qh p).usecs = (s.qh p).usecs ∧
      ((s.setQh q qh).qh p).epType = (s.qh p).epType := by
    by_cases hp : p = q
    · simp only [hp, setQh, Function.update_self]
      exact ⟨hf, hu, ht⟩
    · simp only [setQh, Function.update_of_ne hp, and_self]
  refine ⟨fun _ _ => rfl, fun p i _ => by rw [(hqh p).1], fun p => (hqh p).2.1, fun p => ?_,
    rfl, rfl,
    rfl, rfl⟩
  rw [Scheduled, Scheduled, Qh.periodic, Qh.periodic, (hqh p).2.2]
  exact Iff.rfl

/-- A QH that is already in a schedule is put into another one. -/
private theorem sameBandwidth_listMove (hl : s.Listed q) :
    SameBandwidth s (s.listMove q l) := by
  refine ⟨fun _ _ => rfl, fun _ _ _ => rfl, fun _ => rfl, fun p => ?_, rfl, rfl, rfl, rfl⟩
  apply and_congr_right
  intro _
  rw [listed_listMove]
  exact or_iff_right_of_imp fun hp => hp ▸ hl

/-- A QH that is put into a schedule without time is not counted. -/
private theorem not_bandwidth_listMove [Fintype ι] (hb : s.Bandwidth)
    (hf : s.Fresh q) : ¬ (s.listMove q l).Bandwidth := by
  intro hb'
  have hmem : q ∉ univ.filter fun p => s.Scheduled p := by
    simp only [mem_filter, hf.not_scheduled, and_false, not_false_eq_true]
  have hinsert : univ.filter (fun p => (s.listMove q l).Scheduled p) =
      insert q (univ.filter fun p => s.Scheduled p) := by
    have hiff (p : ι) : (s.listMove q l).Scheduled p ↔ p = q ∨ s.Scheduled p := by
      rw [Scheduled, listed_listMove]
      by_cases hp : p = q
      · simp only [hp, true_or, and_true, iff_true]
        exact hf.1
      · simp only [hp, false_or]
        exact Iff.rfl
    ext p
    simp only [mem_filter, mem_univ, true_and, mem_insert, hiff]
  have hcount := hb'.count
  rw [hinsert, card_insert_of_notMem hmem, ← hb.count] at hcount
  exact absurd (show s.periodicQhCount = s.periodicQhCount + 1 from hcount) (by omega)

/-- What the deactivation of a periodic QH does after its next frame is known. -/
theorem qhDeactivate_case (hp : (s.qh q).periodic = true) (split : Bool) (frameNumber : Nat) :
    ∃ t, SameBandwidth s t ∧ (t.Listed q ↔ s.Listed q) ∧ (t.qh q).periodic = true ∧
      (((s.qh q).qtdList = [] ∧ s.qhDeactivate q split frameNumber = t.qhUnlink q) ∨
        (s.qh q).qtdList ≠ [] ∧ ∃ l, s.qhDeactivate q split frameNumber = t.listMove q l) := by
  obtain ⟨hf, hu, ht, hq⟩ := nextFrame_keeps (s.qh q) frameNumber split
  have hsame := sameBandwidth_setQh hf hu ht
  have hself : (s.setQh q ((s.qh q).nextFrame frameNumber split)).qh q =
      (s.qh q).nextFrame frameNumber split := Function.update_self q _ _
  rw [← hself] at ht hq
  rw [qhDeactivate, if_neg (by rw [hp]; exact Bool.false_ne_true.symm)]
  dsimp only
  refine ⟨_, hsame, Iff.rfl, ?_, ?_⟩
  · rw [Qh.periodic, ht]
    exact hp
  rw [← hq]
  generalize s.setQh q ((s.qh q).nextFrame frameNumber split) = t
  split
  next hnil => exact .inl ⟨hnil, rfl⟩
  next hnil =>
    refine .inr ⟨hnil, ?_⟩
    split
    · exact ⟨_, rfl⟩
    · exact ⟨_, rfl⟩

end Hsotg

/-! ### All sequences of calls -/

/-- A call, a move between two schedules of the same kind (`hcd.c:905,1113`, `hcd_intr.c:144`), or
a change of the transfers of a QH. -/
inductive HcdCall (ι : Type)
  | qhAdd (q : ι)
  | qhUnlink (q : ι)
  | qhDeactivate (q : ι) (schedNextPeriodicSplit : Bool) (frameNumber : Nat)
  | listMove (q : ι) (l : Sched)
  | qtdList (q : ι) (qtds : List Nat)

section

variable {ι : Type} [DecidableEq ι] {s s' : Hsotg ι} {q : ι}

open Hsotg

def hcdStep (s : Hsotg ι) : HcdCall ι → Option (Hsotg ι)
  | .qhAdd q => some (s.qhAdd q).2
  | .qhUnlink q => some (s.qhUnlink q)
  | .qhDeactivate q schedNextPeriodicSplit frameNumber =>
    some (s.qhDeactivate q schedNextPeriodicSplit frameNumber)
  | .listMove q l =>
    if s.Listed q ∧ l.periodic = (s.qh q).periodic then some (s.listMove q l) else none
  | .qtdList q qtds => some (s.setQh q { s.qh q with qtdList := qtds })

/-- The state after `dwc2_hcd_init` with the microframe scheduler, no QH being scheduled. -/
structure Hsotg.Initial (s : Hsotg ι) : Prop where
  uframeSched : s.coreParams.uframeSched = true
  sched : ∀ l, s.sched l = []
  frames : s.frameUsecs = maxUframeUsecs
  qhFrames : ∀ q i, (s.qh q).frameUsecs i = 0
  total : s.periodicUsecs = 0
  count : s.periodicQhCount = 0
  sof : s.gintmsk.getLsbD sofBit = false

/-- All sequences of calls with the microframe scheduler. -/
def hcdSystem (ι : Type) [DecidableEq ι] : System (Hsotg ι) (HcdCall ι) where
  init := Initial
  step := hcdStep

/-- The condition on a call: a QH for which there is time has transfers that are not too long and
is not the 65536th one, or needs no time; a QH with transfers left is in a schedule. -/
def CallOk (s : Hsotg ι) : HcdCall ι → Prop
  | .qhAdd q => s.Fresh q → s.Fits q →
    s.XferFits q ∧ s.periodicQhCount ≠ 65535 ∨ ¬ s.XferFits q ∧ (s.qh q).usecs = 0
  | .qhDeactivate q _ _ => s.Fresh q → (s.qh q).qtdList = []
  | _ => True

/-- The call is an add that returns an error. -/
def Failed (s : Hsotg ι) : HcdCall ι → Prop
  | .qhAdd q => (s.qhAdd q).1 ≠ 0
  | _ => False

/-- The books are right, and the counter is an `u16`. -/
structure HcdInv [Fintype ι] (s : Hsotg ι) : Prop where
  bandwidth : s.Bandwidth
  uframeSched : s.coreParams.uframeSched = true
  count_lt : s.periodicQhCount < 65536

private theorem u16_lt (x : Int) : u16 x < 65536 := by
  rw [u16]
  omega

variable [Fintype ι]

theorem HcdInv.congr (h : HcdInv s) (hs : SameBandwidth s s') : HcdInv s' where
  bandwidth := h.bandwidth.congr hs
  uframeSched := by rw [hs.params, h.uframeSched]
  count_lt := by
    rw [hs.count]
    exact h.count_lt

theorem hcdInv_init (h : s.Initial) : HcdInv s := by
  have hno (q : ι) : ¬ s.Scheduled q := by
    rintro ⟨_, l, hl⟩
    rw [h.sched l] at hl
    cases hl
  have hempty : univ.filter (fun q => s.Scheduled q) = ∅ := filter_eq_empty_iff.mpr fun q _ => hno q
  refine ⟨⟨?_, fun q hq => absurd hq (hno q), fun q _ i _ => h.qhFrames q i, ?_, ?_, ?_⟩,
    h.uframeSched, by rw [h.count]; decide⟩
  · intro i _
    rw [h.frames, sum_eq_zero fun q _ => h.qhFrames q i, Nat.add_zero]
  · rw [hempty, sum_empty, h.total]
  · rw [hempty, card_empty, h.count]
  · rw [h.sof, h.count]
    decide

/-- The books after an add. -/
theorem qhAdd_iff (h : HcdInv s) (q : ι) :
    (CallOk s (.qhAdd q) → HcdInv (s.qhAdd q).2 ∧
      ((s.qhAdd q).1 ≠ 0 → SameBandwidth s (s.qhAdd q).2)) ∧
    ((s.qhAdd q).2.Bandwidth → CallOk s (.qhAdd q)) := by
  have hcase := qhAdd_case h.uframeSched (h.bandwidth.bounded q)
  generalize (s.qhAdd q).2 = t at hcase ⊢
  generalize (s.qhAdd q).1 = r at hcase ⊢
  cases hcase with
  | nop hc hs =>
    refine ⟨fun _ => ⟨h.congr hs, fun _ => hs⟩, fun _ hfresh hfits => ?_⟩
    rcases hc with hc | hc
    · exact absurd hfresh hc
    · exact absurd hfits hc
  | leaked hfresh hfits hx hr hl =>
    constructor
    · intro hok
      have husecs : (s.qh q).usecs = 0 := by
        rcases hok hfresh hfits with hok | hok
        · exact absurd hok.1 hx
        · exact hok.2
      have hs := hl.sameBandwidth h.bandwidth hfresh husecs
      exact ⟨h.congr hs, fun _ => hs⟩
    · intro hb' _ _
      right
      refine ⟨hx, ?_⟩
      by_contra husecs
      exact hl.not_bandwidth hfresh husecs hb'
  | claimed hfresh hfits hx hc =>
    have hiff := hc.bandwidth_iff h.bandwidth hfresh h.count_lt
    constructor
    · intro hok
      have hcount : s.periodicQhCount ≠ 65535 := by
        rcases hok hfresh hfits with hok | hok
        · exact hok.2
        · exact absurd hx hok.1
      refine ⟨⟨hiff.mpr hcount, by rw [hc.params, h.uframeSched], ?_⟩, fun hr => absurd rfl hr⟩
      rw [hc.count]
      exact u16_lt _
    · intro hb' _ _
      exact .inl ⟨hx, hiff.mp hb'⟩

theorem qhUnlink_inv (h : HcdInv s) (q : ι) : HcdInv (s.qhUnlink q) := by
  by_cases hq : s.Scheduled q
  · have hrel := qhUnlink_of_scheduled h.uframeSched (h.bandwidth.bounded q) hq
    refine ⟨hrel.bandwidth h.bandwidth hq h.count_lt, by rw [hrel.params, h.uframeSched], ?_⟩
    rw [hrel.count]
    exact u16_lt _
  · exact h.congr (qhUnlink_of_not_scheduled hq)

/-- The books after a deactivation. -/
theorem qhDeactivate_iff (h : HcdInv s) (q : ι) (split : Bool) (frameNumber : Nat) :
    (CallOk s (.qhDeactivate q split frameNumber) → HcdInv (s.qhDeactivate q split frameNumber)) ∧
    ((s.qhDeactivate q split frameNumber).Bandwidth →
      CallOk s (.qhDeactivate q split frameNumber)) := by
  by_cases hp : (s.qh q).periodic = true
  · obtain ⟨t, hs, hl, hpt, hcase⟩ := qhDeactivate_case hp split frameNumber
    have ht := h.congr hs
    rcases hcase with ⟨hnil, he⟩ | ⟨hnil, l, he⟩
    · rw [he]
      exact ⟨fun _ => qhUnlink_inv ht q, fun _ _ => hnil⟩
    · rw [he]
      constructor
      · intro hok
        have hlisted : s.Listed q := by
          by_contra hno
          exact hnil (hok ⟨hp, hno⟩)
        exact ht.congr (sameBandwidth_listMove (hl.mpr hlisted))
      · intro hb' hfresh
        have hfresh' : t.Fresh q := ⟨hpt, fun hlt => hfresh.2 (hl.mp hlt)⟩
        exact absurd hb' (not_bandwidth_listMove ht.bandwidth hfresh')
  · have hs := qhUnlink_of_not_scheduled (s := s) (q := q) fun hq => hp hq.1
    refine ⟨fun _ => ?_, fun _ hfresh => absurd hfresh.1 hp⟩
    rw [Bool.not_eq_true] at hp
    have hp' : ((s.qhUnlink q).qh q).periodic = false := by rw [qhUnlink_qh hp, hp]
    rw [qhDeactivate, if_pos hp]
    dsimp only
    split
    · exact h.congr hs
    · exact (h.congr hs).congr
        (qhAdd_of_not_fresh fun hf => Bool.false_ne_true (hp'.symm.trans hf.1))

theorem hcdInv_step (h : HcdInv s) {c : HcdCall ι} (hok : CallOk s c) (he : hcdStep s c = some s') :
    HcdInv s' ∧ (Failed s c → SameBandwidth s s') := by
  cases c with
  | qhAdd q =>
    obtain rfl := Option.some.inj he
    exact (qhAdd_iff h q).1 hok
  | qhUnlink q =>
    obtain rfl := Option.some.inj he
    exact ⟨qhUnlink_inv h q, False.elim⟩
  | qhDeactivate q split frameNumber =>
    obtain rfl := Option.some.inj he
    exact ⟨(qhDeactivate_iff h q split frameNumber).1 hok, False.elim⟩
  | listMove q l =>
    simp only [hcdStep] at he
    split at he
    next hc =>
      obtain rfl := Option.some.inj he
      exact ⟨h.congr (sameBandwidth_listMove hc.1), False.elim⟩
    next hc => cases he
  | qtdList q qtds =>
    obtain rfl := Option.some.inj he
    exact ⟨h.congr (sameBandwidth_setQh rfl rfl rfl), False.elim⟩

theorem hcdInv_reach (h : (hcdSystem ι).Reach CallOk s) : HcdInv s := by
  apply System.Reach.invariant _ _ h
  · intro s hs
    exact hcdInv_init hs
  · intro s c s' hs hok he
    exact (hcdInv_step hs hok he).1

/-- In every run whose calls meet the condition the periodic bandwidth is accounted for; a call from
such a state keeps it so, and changes nothing if it is an add that fails, exactly if it meets the
condition. -/
theorem periodic_bandwidth_conserved (h : (hcdSystem ι).Reach CallOk s) :
    s.Bandwidth ∧ ∀ c s', hcdStep s c = some s' →
      ((s'.Bandwidth ∧ (Failed s c → SameBandwidth s s')) ↔ CallOk s c) := by
  have hinv := hcdInv_reach h
  refine ⟨hinv.bandwidth, fun c s' he => ⟨fun hb' => ?_, fun hok => ?_⟩⟩
  · cases c with
    | qhAdd q =>
      obtain rfl := Option.some.inj he
      exact (qhAdd_iff hinv q).2 hb'.1
    | qhDeactivate q split frameNumber =>
      obtain rfl := Option.some.inj he
      exact (qhDeactivate_iff hinv q split frameNumber).2 hb'.1
    | qhUnlink q => trivial
    | listMove q l => trivial
    | qtdList q qtds => trivial
  · obtain ⟨hinv', hfail⟩ := hcdInv_step hinv hok he
    exact ⟨hinv'.bandwidth, hfail⟩

end

/-- A controller with one QH that is in no schedule. -/
def oneQh (maxTransferSize : Nat) (qh : Qh) : Hsotg Unit where
  coreParams := ⟨true, false, maxTransferSize, 8⟩
  qh _ := qh
  sched _ := []
  nonPeriodicQhPtr := none
  periodicChannels := 0
  nonPeriodicChannels := 0
  periodicUsecs := 0
  frameUsecs := maxUframeUsecs
  periodicQhCount := 0
  gintmsk := 0#32

private theorem oneQh_initial {n : Nat} {qh : Qh} (h : ∀ i, qh.frameUsecs i = 0) :
    (oneQh n qh).Initial :=
  ⟨rfl, fun _ => rfl, rfl, fun _ => h, rfl, rfl, BitVec.getLsbD_zero⟩

/-- An interrupt endpoint of a full-speed device. -/
def intQh : Qh := ⟨.int, true, 64, .full, false, 150, 8, 10, fun _ => 0, 0, [1]⟩

/-- The QH takes its time from two slots. -/
theorem periodic_bandwidth_conserved_int :
    ((oneQh 65535 intQh).qhAdd ()).2.Bandwidth ∧
      ((oneQh 65535 intQh).qhAdd ()).2.periodicUsecs = 150 ∧
      (((oneQh 65535 intQh).qhAdd ()).2.qh ()).frameUsecs 1 = 50 := by
  have h0 : (hcdSystem Unit).Reach CallOk (oneQh 65535 intQh) := .init (oneQh_initial fun _ => rfl)
  have hok : CallOk (oneQh 65535 intQh) (.qhAdd ()) := by
    intro _ _
    left
    constructor
    · show maxPacket 64 * hbMult 64 ≤ 65535
      decide
    · exact (by decide : 0 ≠ 65535)
  exact ⟨(((periodic_bandwidth_conserved h0).2 (.qhAdd ()) _ rfl).mpr hok).1, by decide, by decide⟩

/-- A high-bandwidth isochronous endpoint with three packets of 1024 bytes in a microframe. -/
def isocQh : Qh := ⟨.isoc, true, 0x1400, .high, false, 61, 1, 10, fun _ => 0, 0, [1]⟩

/-- Adding the QH is refused because of the length of its transfers, but the time of the first slot
is gone; deactivating it puts it into a schedule that does not count it. -/
theorem qh_add_leaks_time : (oneQh 2047 isocQh).Initial ∧
    ((oneQh 2047 isocQh).qhAdd ()).1 = -enospc ∧
    ((oneQh 2047 isocQh).qhAdd ()).2.frameUsecs 0 = 39 ∧
    (((oneQh 2047 isocQh).qhAdd ()).2.qh ()).frameUsecs 0 = 61 ∧
    ¬ ((oneQh 2047 isocQh).qhAdd ()).2.Scheduled () ∧
    ((oneQh 2047 isocQh).qhDeactivate () false 0).Scheduled () ∧
    ((oneQh 2047 isocQh).qhDeactivate () false 0).periodicQhCount = 0 :=
  ⟨oneQh_initial fun _ => rfl, by decide, by decide, by decide, by decide, by decide, by decide⟩

end LinuxStm32.Drivers.Usb
