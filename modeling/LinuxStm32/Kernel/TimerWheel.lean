import LinuxStm32.Kernel.Timer
import LinuxStm32.Base.Wheel

/-!
# Kernel timers run on their tick

Ticks are numbered without wrapping around: tick `N` is to be processed next when `timer_jiffies`
is `N` modulo `2 ^ 32`. A timer is due at a tick. In `tv1` a timer is in the slot of the tick that
it is due at, which is one of the next 256; in `tv2` to `tv5` it waits for the block of that tick to
begin. One iteration of `__run_timers` empties the slots whose block begins, after which no block
that a timer waits for has begun, and takes from `tv1` just the timers that are due.
-/

namespace LinuxStm32.Kernel

open Base Wheel

/-! ### Where a timer is put -/

/-- The number of ticks to go; none if `expires` is in the past. -/
def timerDelay (timerJiffies expires : BitVec 32) : Nat :=
  if 0 ≤ (expires - timerJiffies).toInt then (expires - timerJiffies).toNat else 0

/-- A timer that is due at tick `d` is in the right list before tick `N`. -/
def Placed (N d : Nat) (expires : BitVec 32) : Nat → Nat → Prop
  | 0, i => N ≤ d ∧ d < N + 256 ∧ i = d % 256
  | n + 1, i => n < 4 ∧ expires = BitVec.ofNat 32 d ∧ d < N + 2 ^ 31 ∧
      i = d / 2 ^ (tvrBits + n * tvnBits) % 2 ^ tvnBits ∧ Waits (tvrBits + n * tvnBits) tvnBits N d

/-- The block that the timer waits for does not begin at tick `N`. -/
def Later (N d : Nat) : Nat → Prop
  | 0 => True
  | n + 1 => N < blockStart (tvrBits + n * tvnBits) d

theorem tvrIndex_ofNat (d : Nat) : tvrIndex (BitVec.ofNat 32 d) = d % 256 := by
  rw [tvrIndex, BitVec.toNat_and, BitVec.toNat_ofNat, show (255#32).toNat = 2 ^ 8 - 1 from rfl,
    Nat.and_two_pow_sub_one_eq_mod]
  omega

theorem tvnIndex_ofNat (d : Nat) {n : Nat} (hn : n < 4) :
    tvnIndex (BitVec.ofNat 32 d) n = d / 2 ^ (tvrBits + n * tvnBits) % 2 ^ tvnBits := by
  rw [tvnIndex, BitVec.toNat_and, BitVec.toNat_ushiftRight, BitVec.toNat_ofNat,
    Nat.shiftRight_eq_div_pow, show (63#32).toNat = 2 ^ 6 - 1 from rfl,
    Nat.and_two_pow_sub_one_eq_mod]
  match n, hn with
  | 0, _ => simp only [tvrBits, tvnBits]; omega
  | 1, _ => simp only [tvrBits, tvnBits]; omega
  | 2, _ => simp only [tvrBits, tvnBits]; omega
  | 3, _ => simp only [tvrBits, tvnBits]; omega

theorem ofNat_add_sub (N : Nat) (e : BitVec 32) :
    BitVec.ofNat 32 (N + (e - BitVec.ofNat 32 N).toNat) = e := by
  rw [BitVec.ofNat_add, BitVec.ofNat_toNat, BitVec.setWidth_eq, BitVec.add_comm,
    BitVec.sub_add_cancel]

theorem toInt_nonneg_iff (x : BitVec 32) : 0 ≤ x.toInt ↔ x.toNat < 2 ^ 31 := by
  rw [BitVec.toInt_eq_toNat_cond]
  have := x.isLt
  split <;> omega

theorem placed_zero {N d : Nat} {e : BitVec 32} (hle : N ≤ d) (hlt : d < N + 256) :
    Placed N d e 0 (tvrIndex (BitVec.ofNat 32 d)) ∧ Later N d 0 :=
  ⟨⟨hle, hlt, tvrIndex_ofNat d⟩, trivial⟩

theorem placed_succ {N d : Nat} {n : Nat} (hn : n < 4)
    (hle : N + 2 ^ (tvrBits + n * tvnBits) ≤ d)
    (hlt : d < N + 2 ^ (tvrBits + n * tvnBits + tvnBits))
    (hmax : d < N + 2 ^ 31) :
    Placed N d (BitVec.ofNat 32 d) (n + 1) (tvnIndex (BitVec.ofNat 32 d) n) ∧
      Later N d (n + 1) := by
  obtain ⟨hlater, hwaits⟩ := waits_of_le hle hlt
  exact ⟨⟨hn, rfl, hmax, tvnIndex_ofNat d hn, hwaits⟩, hlater⟩

/-- `internal_add_timer` puts a timer in the right list, and into no block that has begun. -/
theorem timerSlot_placed (N : Nat) (e : BitVec 32) :
    Placed N (N + timerDelay (BitVec.ofNat 32 N) e) e (timerSlot (BitVec.ofNat 32 N) e).1
        (timerSlot (BitVec.ofNat 32 N) e).2 ∧
      Later N (N + timerDelay (BitVec.ofNat 32 N) e) (timerSlot (BitVec.ofNat 32 N) e).1 := by
  have he := ofNat_add_sub N e
  have hsign := toInt_nonneg_iff (e - BitVec.ofNat 32 N)
  rw [timerDelay, timerSlot]
  generalize e - BitVec.ofNat 32 N = idx at *
  by_cases hneg : 0 ≤ idx.toInt
  · rw [if_pos hneg]
    have hmax := hsign.mp hneg
    rw [← he]
    have hfar (n : Nat) (hn : n < 4) (hle : 2 ^ (tvrBits + n * tvnBits) ≤ idx.toNat)
        (hlt : idx.toNat < 2 ^ (tvrBits + n * tvnBits + tvnBits)) :=
      placed_succ hn (Nat.add_le_add_left hle N) (Nat.add_lt_add_left hlt N)
        (Nat.add_lt_add_left hmax N)
    by_cases h0 : idx.toNat < 2 ^ tvrBits
    · rw [if_pos h0]
      exact placed_zero (Nat.le_add_right N _) (Nat.add_lt_add_left h0 N)
    rw [if_neg h0]
    by_cases h1 : idx.toNat < 2 ^ (tvrBits + tvnBits)
    · rw [if_pos h1]
      exact hfar 0 (by omega) (Nat.not_lt.mp h0) h1
    rw [if_neg h1]
    by_cases h2 : idx.toNat < 2 ^ (tvrBits + 2 * tvnBits)
    · rw [if_pos h2]
      exact hfar 1 (by omega) (Nat.not_lt.mp h1) h2
    rw [if_neg h2]
    by_cases h3 : idx.toNat < 2 ^ (tvrBits + 3 * tvnBits)
    · rw [if_pos h3]
      exact hfar 2 (by omega) (Nat.not_lt.mp h2) h3
    rw [if_neg h3, if_neg (Int.not_lt.mpr hneg)]
    exact hfar 3 (by omega) (Nat.not_lt.mp h3) (Nat.lt_trans hmax (by decide))
  · have hbig : 2 ^ 31 ≤ idx.toNat := by omega
    rw [if_neg hneg, if_neg (by simp only [tvrBits]; omega),
      if_neg (by simp only [tvrBits, tvnBits]; omega),
      if_neg (by simp only [tvrBits, tvnBits]; omega),
      if_neg (by simp only [tvrBits, tvnBits]; omega), if_pos (by omega)]
    exact placed_zero (Nat.le_refl N) (by omega)

/-! ### The lists -/

variable {τ : Type} [DecidableEq τ] {s s' : Timers τ} {t x : τ} {n i m j N : Nat} {due : τ → Nat}

namespace Timers

/-- A timer is linked into at most one list, once, and that is what `timer_pending` tells; the
timers of `l` have been unlinked and are to be linked again. -/
structure Linked (l : List τ) (s : Timers τ) : Prop where
  pending : ∀ t ∉ l, (s.pending t = true ↔ t ∈ s.workList ∨ ∃ n i, t ∈ s.vec n i)
  loose : ∀ t ∈ l, t ∉ s.workList ∧ ∀ n i, t ∉ s.vec n i
  looseNodup : l.Nodup
  nodup : ∀ n i, (s.vec n i).Nodup
  unique : ∀ t n i m j, t ∈ s.vec n i → t ∈ s.vec m j → (n, i) = (m, j)
  workNodup : s.workList.Nodup
  apart : ∀ t ∈ s.workList, ∀ n i, t ∉ s.vec n i

variable {l : List τ}

theorem Linked.mem_detach_vec (h : Linked l s) (c : Bool) :
    x ∈ (s.detachTimer t c).vec n i ↔ x ≠ t ∧ x ∈ s.vec n i :=
  (h.nodup n i).mem_erase_iff

theorem Linked.mem_detach_work (h : Linked l s) (c : Bool) :
    x ∈ (s.detachTimer t c).workList ↔ x ≠ t ∧ x ∈ s.workList :=
  h.workNodup.mem_erase_iff

/-- `detach_timer` unlinks the timer and no other. -/
theorem Linked.detach (h : Linked [] s) (t : τ) (c : Bool) :
    Linked (if c then [] else [t]) (s.detachTimer t c) := by
  have hpending (x : τ) (hx : x ≠ t) : (s.detachTimer t c).pending x = true ↔
      x ∈ (s.detachTimer t c).workList ∨ ∃ n i, x ∈ (s.detachTimer t c).vec n i := by
    have hsame : (s.detachTimer t c).pending x = s.pending x := by
      show (if c then Function.update s.pending t false else s.pending) x = _
      split
      next => exact Function.update_of_ne hx _ _
      next => rfl
    rw [hsame, h.pending x List.not_mem_nil, h.mem_detach_work c]
    simp only [h.mem_detach_vec c, ne_eq, hx, not_false_eq_true, true_and]
  have hgone : t ∉ (s.detachTimer t c).workList ∧ ∀ n i, t ∉ (s.detachTimer t c).vec n i :=
    ⟨fun hw => ((h.mem_detach_work c).mp hw).1 rfl,
      fun n i hv => ((h.mem_detach_vec c).mp hv).1 rfl⟩
  refine ⟨fun x hx => ?_, fun x hx => ?_, ?_, fun n i => (h.nodup n i).erase t, ?_,
    h.workNodup.erase t, ?_⟩
  · by_cases hxt : x = t
    · cases c with
      | false => exact absurd (List.mem_singleton.mpr hxt) hx
      | true =>
        rw [hxt]
        have hfalse : (s.detachTimer t true).pending t = false := by
          show Function.update s.pending t false t = false
          rw [Function.update_self]
        rw [hfalse]
        refine ⟨nofun, fun hlink => ?_⟩
        rcases hlink with hw | ⟨n, i, hv⟩
        · exact absurd hw hgone.1
        · exact absurd hv (hgone.2 n i)
    · exact hpending x hxt
  · cases c with
    | false => exact List.mem_singleton.mp hx ▸ hgone
    | true => exact absurd hx List.not_mem_nil
  · cases c with
    | false => exact List.nodup_cons.mpr ⟨List.not_mem_nil, List.nodup_nil⟩
    | true => exact List.nodup_nil
  · intro x n i m j hn hm
    exact h.unique x n i m j ((h.mem_detach_vec c).mp hn).2 ((h.mem_detach_vec c).mp hm).2
  · intro x hx n i hv
    exact h.apart x ((h.mem_detach_work c).mp hx).2 n i ((h.mem_detach_vec c).mp hv).2

omit [DecidableEq τ] in
/-- A timer that is not pending is in no list. -/
theorem Linked.of_not_pending (h : Linked [] s) (ht : s.pending t = false) : Linked [t] s := by
  have hnot : t ∉ s.workList ∧ ∀ n i, t ∉ s.vec n i := by
    have hiff := h.pending t List.not_mem_nil
    rw [ht] at hiff
    exact ⟨fun hw => Bool.false_ne_true (hiff.mpr (.inl hw)),
      fun n i hv => Bool.false_ne_true (hiff.mpr (.inr ⟨n, i, hv⟩))⟩
  exact ⟨fun x _ => h.pending x List.not_mem_nil, fun x hx => List.mem_singleton.mp hx ▸ hnot,
    List.nodup_cons.mpr ⟨List.not_mem_nil, List.nodup_nil⟩, h.nodup, h.unique, h.workNodup, h.apart⟩

theorem mem_addTail {slot : Nat × Nat} :
    x ∈ (s.addTail slot t).vec n i ↔ x ∈ s.vec n i ∨ x = t ∧ (n, i) = slot := by
  show x ∈ (if (n, i) = slot then s.vec n i ++ [t] else s.vec n i) ↔ _
  split
  next h => simp [h]
  next h => simp [h]

/-- An unlinked timer is linked. -/
theorem Linked.addTail (h : Linked (t :: l) s) (slot : Nat × Nat) :
    Linked l (s.addTail slot t) := by
  obtain ⟨htwork, hvec⟩ := h.loose t List.mem_cons_self
  obtain ⟨htl, hl⟩ := List.nodup_cons.mp h.looseNodup
  refine ⟨fun x hxl => ?_, fun x hx => ?_, hl, fun n i => ?_, ?_, h.workNodup, ?_⟩
  · show Function.update s.pending t true x = true ↔ x ∈ s.workList ∨ _
    by_cases hx : x = t
    · rw [hx, Function.update_self]
      exact ⟨fun _ => .inr ⟨slot.1, slot.2, mem_addTail.mpr (.inr ⟨rfl, rfl⟩)⟩, fun _ => rfl⟩
    · have hnot : x ∉ t :: l := fun hin => (List.mem_cons.mp hin).elim hx hxl
      rw [Function.update_of_ne hx, h.pending x hnot]
      simp only [mem_addTail, hx, false_and, or_false]
  · obtain ⟨hw, hv⟩ := h.loose x (List.mem_cons_of_mem t hx)
    refine ⟨hw, fun n i hmem => ?_⟩
    rcases mem_addTail.mp hmem with hmem | ⟨hxt, -⟩
    · exact hv n i hmem
    · exact htl (hxt ▸ hx)
  · show (if (n, i) = slot then s.vec n i ++ [t] else s.vec n i).Nodup
    split
    · rw [List.nodup_append]
      refine ⟨h.nodup n i, List.nodup_cons.mpr ⟨List.not_mem_nil, List.nodup_nil⟩, ?_⟩
      intro a ha b hb hab
      rw [hab, List.mem_singleton.mp hb] at ha
      exact hvec n i ha
    · exact h.nodup n i
  · intro x n i m j hn hm
    rcases mem_addTail.mp hn with hn | ⟨hx, hn⟩
    · rcases mem_addTail.mp hm with hm | ⟨hx, -⟩
      · exact h.unique x n i m j hn hm
      · exact absurd (hx ▸ hn) (hvec n i)
    · rcases mem_addTail.mp hm with hm | ⟨-, hm⟩
      · exact absurd (hx ▸ hm) (hvec m j)
      · rw [hn, hm]
  · intro x hx n i hv
    rcases mem_addTail.mp hv with hv | ⟨hxt, -⟩
    · exact h.apart x hx n i hv
    · exact htwork (hxt ▸ hx)

/-! ### Cascading -/

/-- Adding pending timers again touches nothing but the lists. -/
theorem foldl_add_eq (h : ∀ t ∈ l, s.pending t = true) :
    ∃ vec, l.foldl internalAddTimer s = { s with vec := vec } := by
  induction l generalizing s with
  | nil => exact ⟨s.vec, rfl⟩
  | cons t l ih =>
    have hpending : Function.update s.pending t true = s.pending := by
      rw [← h t List.mem_cons_self, Function.update_eq_self]
    have hadd : s.internalAddTimer t = { s with vec := (s.internalAddTimer t).vec } := by
      rw [internalAddTimer, addTail, hpending]
    rw [List.foldl_cons, hadd]
    exact ih fun x hx => h x (List.mem_cons_of_mem t hx)

theorem mem_foldl_add (l : List τ) (s : Timers τ) : x ∈ (l.foldl internalAddTimer s).vec n i ↔
    x ∈ s.vec n i ∨ x ∈ l ∧ (n, i) = timerSlot s.timerJiffies (s.expires x) := by
  induction l generalizing s with
  | nil => simp
  | cons t l ih =>
    rw [List.foldl_cons, ih, internalAddTimer, mem_addTail, List.mem_cons, or_assoc]
    apply or_congr Iff.rfl
    constructor
    · rintro (⟨rfl, h⟩ | ⟨hx, h⟩)
      · exact ⟨.inl rfl, h⟩
      · exact ⟨.inr hx, h⟩
    · rintro ⟨rfl | hx, h⟩
      · exact .inl ⟨rfl, h⟩
      · exact .inr ⟨hx, h⟩

theorem Linked.foldl_add (h : Linked l s) : Linked [] (l.foldl internalAddTimer s) := by
  induction l generalizing s with
  | nil => exact h
  | cons t l ih => exact ih (h.addTail _)

omit [DecidableEq τ] in
theorem mem_clear {slot : Nat × Nat} :
    x ∈ (s.clear slot).vec n i ↔ x ∈ s.vec n i ∧ (n, i) ≠ slot := by
  show x ∈ (if (n, i) = slot then [] else s.vec n i) ↔ _
  split
  next h => simp [h]
  next h => simp [h]

omit [DecidableEq τ] in
/-- The timers of a list that is emptied are unlinked. -/
theorem Linked.clear (h : Linked [] s) (slot : Nat × Nat) :
    Linked (s.vec slot.1 slot.2) (s.clear slot) := by
  refine ⟨fun x hx => ?_, fun x hx => ?_, h.nodup _ _, fun n i => ?_, ?_, h.workNodup, ?_⟩
  · show s.pending x = true ↔ x ∈ s.workList ∨ _
    rw [h.pending x List.not_mem_nil]
    apply or_congr Iff.rfl
    constructor
    · rintro ⟨n, i, hv⟩
      exact ⟨n, i, mem_clear.mpr ⟨hv, fun heq => hx (heq ▸ hv)⟩⟩
    · rintro ⟨n, i, hv⟩
      exact ⟨n, i, (mem_clear.mp hv).1⟩
  · refine ⟨fun hw => h.apart x hw _ _ hx, fun n i hv => ?_⟩
    obtain ⟨hv, hne⟩ := mem_clear.mp hv
    exact hne (h.unique x n i _ _ hv hx)
  · show (if (n, i) = slot then [] else s.vec n i).Nodup
    split
    · exact List.nodup_nil
    · exact h.nodup n i
  · intro x n i m j hn hm
    exact h.unique x n i m j (mem_clear.mp hn).1 (mem_clear.mp hm).1
  · intro x hx n i hv
    exact h.apart x hx n i (mem_clear.mp hv).1

theorem Linked.cascade (h : Linked [] s) (m j : Nat) : Linked [] (s.cascade m j) :=
  (h.clear (m, j)).foldl_add

/-- A timer stays where it is, or is put where `internal_add_timer` puts it. -/
theorem mem_cascade : x ∈ (s.cascade m j).vec n i ↔ (x ∈ s.vec n i ∧ (n, i) ≠ (m, j)) ∨
    (x ∈ s.vec m j ∧ (n, i) = timerSlot s.timerJiffies (s.expires x)) := by
  rw [cascade, mem_foldl_add, mem_clear]
  rfl

theorem Linked.cascade_eq (h : Linked [] s) (m j : Nat) :
    ∃ vec, s.cascade m j = { s with vec := vec } := by
  apply foldl_add_eq
  intro t ht
  exact (h.pending t List.not_mem_nil).mpr (.inr ⟨m, j, ht⟩)

/-- The lists before tick `N`, of which those of `tv2` up to level `m` have been cascaded. -/
def WheelTo (N : Nat) (due : τ → Nat) (m : Nat) (s : Timers τ) : Prop :=
  ∀ n i t, t ∈ s.vec n i → Placed N (due t) (s.expires t) n i ∧ (n ≤ m → Later N (due t) n)

theorem hit_of_slot {d : Nat} (hm : m < 4) (hzero : N % 2 ^ (tvrBits + m * tvnBits) = 0)
    (hslot : tvnIndex (BitVec.ofNat 32 N) m = d / 2 ^ (tvrBits + m * tvnBits) % 2 ^ tvnBits) :
    Hit (tvrBits + m * tvnBits) tvnBits N d := by
  rw [tvnIndex_ofNat N hm] at hslot
  exact ⟨hzero, hslot⟩

/-- One level is cascaded where its block begins. -/
theorem WheelTo.cascade (h : WheelTo N due m s) (hl : Linked [] s)
    (htick : s.timerJiffies = BitVec.ofNat 32 N) (hm : m < 4)
    (hzero : N % 2 ^ (tvrBits + m * tvnBits) = 0) :
    WheelTo N due (m + 1) (s.cascade (m + 1) (tvnIndex s.timerJiffies m)) := by
  obtain ⟨vec, heq⟩ := hl.cascade_eq (m + 1) (tvnIndex s.timerJiffies m)
  intro n i t hmem
  have hexpires : (s.cascade (m + 1) (tvnIndex s.timerJiffies m)).expires t = s.expires t := by
    rw [heq]
  rw [hexpires]
  rcases mem_cascade.mp hmem with ⟨hold, hne⟩ | ⟨hold, hslot⟩
  · obtain ⟨hplaced, hlater⟩ := h n i t hold
    refine ⟨hplaced, fun hn => ?_⟩
    by_cases hnm : n ≤ m
    · exact hlater hnm
    · obtain rfl : n = m + 1 := by omega
      obtain ⟨-, -, -, hi, hwaits⟩ := hplaced
      apply hwaits.lt_of_not_hit
      intro hit
      apply hne
      rw [hi, htick, tvnIndex_ofNat N hm, hit.2]
  · -- a timer of the block that begins goes to a finer list
    obtain ⟨⟨-, he, hmax, hi, hwaits⟩, -⟩ := h _ _ t hold
    rw [htick] at hi
    obtain ⟨hle, hlt⟩ := hwaits.of_hit (hit_of_slot hm hzero hi)
    have hdelay : N + timerDelay (BitVec.ofNat 32 N) (s.expires t) = due t := by
      have hsub : (s.expires t - BitVec.ofNat 32 N).toNat = due t - N := by
        rw [he, BitVec.toNat_sub, BitVec.toNat_ofNat, BitVec.toNat_ofNat]
        omega
      rw [timerDelay, if_pos ((toInt_nonneg_iff _).mpr (by omega)), hsub]
      omega
    have hplaced := timerSlot_placed N (s.expires t)
    rw [hdelay] at hplaced
    rw [htick] at hslot
    obtain ⟨hn, hi'⟩ := Prod.mk.inj hslot
    rw [hn, hi']
    exact ⟨hplaced.1, fun _ => hplaced.2⟩

omit [DecidableEq τ] in
/-- Where no block of a level begins, none of a coarser level does. -/
theorem WheelTo.of_ne_zero (h : WheelTo N due m s)
    (hne : N % 2 ^ (tvrBits + m * tvnBits) ≠ 0) : WheelTo N due 4 s := by
  intro n i t hmem
  obtain ⟨hplaced, hlater⟩ := h n i t hmem
  refine ⟨hplaced, fun _ => ?_⟩
  by_cases hnm : n ≤ m
  · exact hlater hnm
  · cases n with
    | zero => exact trivial
    | succ n =>
      obtain ⟨-, -, -, -, hwaits⟩ := hplaced
      apply hwaits.lt_of_not_hit
      intro hit
      apply hne
      have hdvd : 2 ^ (tvrBits + m * tvnBits) ∣ 2 ^ (tvrBits + n * tvnBits) := by
        apply Nat.pow_dvd_pow
        apply Nat.add_le_add_left
        exact Nat.mul_le_mul_right _ (by omega)
      exact Nat.mod_eq_zero_of_dvd (hdvd.trans (Nat.dvd_of_mod_eq_zero hit.1))

/-- The next level begins a block too when the index is 0. -/
theorem mod_succ_eq_zero (hm : m < 4) (hzero : N % 2 ^ (tvrBits + m * tvnBits) = 0) :
    tvnIndex (BitVec.ofNat 32 N) m = 0 ↔ N % 2 ^ (tvrBits + (m + 1) * tvnBits) = 0 := by
  rw [tvnIndex_ofNat N hm]
  match m, hm with
  | 0, _ => simp only [tvrBits, tvnBits] at *; omega
  | 1, _ => simp only [tvrBits, tvnBits] at *; omega
  | 2, _ => simp only [tvrBits, tvnBits] at *; omega
  | 3, _ => simp only [tvrBits, tvnBits] at *; omega

/-- The state `u` after cascading `s` before tick `N` up to level `m`. -/
structure Cascaded (N : Nat) (due : τ → Nat) (s : Timers τ) (m : Nat) (u : Timers τ) : Prop where
  wheel : WheelTo N due m u
  linked : Linked [] u
  tick : u.timerJiffies = BitVec.ofNat 32 N
  same : ∃ vec, u = { s with vec := vec }

variable {u : Timers τ}

theorem Cascaded.next (h : Cascaded N due s m u) (hm : m < 4)
    (hzero : N % 2 ^ (tvrBits + m * tvnBits) = 0) :
    Cascaded N due s (m + 1) (u.cascade (m + 1) (tvnIndex u.timerJiffies m)) := by
  obtain ⟨vec, hu⟩ := h.same
  obtain ⟨vec', heq⟩ := h.linked.cascade_eq (m + 1) (tvnIndex u.timerJiffies m)
  refine ⟨h.wheel.cascade h.linked h.tick hm hzero, h.linked.cascade _ _, ?_, vec', ?_⟩
  · rw [heq]
    exact h.tick
  · rw [heq, hu]

omit [DecidableEq τ] in
theorem Cascaded.done (h : Cascaded N due s m u) (hne : N % 2 ^ (tvrBits + m * tvnBits) ≠ 0) :
    Cascaded N due s 4 u :=
  ⟨h.wheel.of_ne_zero hne, h.linked, h.tick, h.same⟩

omit [DecidableEq τ] in
/-- The next level begins a block too just when the index is 0. -/
theorem Cascaded.index_eq_zero (h : Cascaded N due s (m + 1) u) (hm : m < 4)
    (hzero : N % 2 ^ (tvrBits + m * tvnBits) = 0) :
    tvnIndex u.timerJiffies m = 0 ↔ N % 2 ^ (tvrBits + (m + 1) * tvnBits) = 0 := by
  rw [h.tick]
  exact mod_succ_eq_zero hm hzero

/-- After cascading, no block that a timer waits for begins at tick `N`. -/
theorem cascaded_cascadeTimers (h : Cascaded N due s 0 s) :
    Cascaded N due s 4 s.cascadeTimers := by
  have h0 : tvrIndex s.timerJiffies = N % 256 := by rw [h.tick, tvrIndex_ofNat]
  rw [cascadeTimers, h0]
  dsimp only
  split
  next hne => exact h.done hne
  next hz0 =>
    rw [not_not] at hz0
    have h1 := h.next (by omega) hz0
    split
    next hne => exact h1.done fun hz => hne ((h1.index_eq_zero (by omega) hz0).mpr hz)
    next hz1 =>
      have hz1 := (h1.index_eq_zero (by omega) hz0).mp (not_not.mp hz1)
      have h2 := h1.next (by omega) hz1
      split
      next hne => exact h2.done fun hz => hne ((h2.index_eq_zero (by omega) hz1).mpr hz)
      next hz2 =>
        have hz2 := (h2.index_eq_zero (by omega) hz1).mp (not_not.mp hz2)
        have h3 := h2.next (by omega) hz2
        split
        next hne => exact h3.done fun hz => hne ((h3.index_eq_zero (by omega) hz2).mpr hz)
        next hz3 =>
          exact h3.next (by omega) ((h3.index_eq_zero (by omega) hz2).mp (not_not.mp hz3))

end Timers

end LinuxStm32.Kernel
