import LinuxStm32.Mm.PageAllocCanonical

/-!
# The allocator finds every free run

`__rmqueue` (`mm/page_alloc.c:908`) looks at the lists of the asked type, at those of the other
types from the largest order down, and at the reserve last. Each search fails only on empty
lists; and since the lists hold the maximal blocks, a free aligned run of pages is part of a
block of at least its order on one of the lists.
-/

namespace LinuxStm32.Mm

open Base Dyadic

variable {zr : ZoneRange} {z : Zone} {G : Nat → Prop} {p q o order : Nat} {t : MigrateType}
  {disabled : Bool}

/-! ### What a failed search means -/

theorem rmqueueSmallestLoop_eq_none {n current : Nat} :
    rmqueueSmallestLoop order t n current z = none ↔
      ∀ c, current ≤ c → c < current + n → z.freeList c t = [] := by
  induction n generalizing current with
  | zero =>
    refine ⟨fun _ c h1 h2 => by omega, fun _ => rfl⟩
  | succ n ih =>
    rw [rmqueueSmallestLoop]
    split
    · next hnil =>
      rw [ih]
      refine ⟨fun h c h1 h2 => ?_, fun h c h1 h2 => h c (by omega) (by omega)⟩
      rcases Nat.eq_or_lt_of_le h1 with rfl | hlt
      · exact hnil
      · exact h c hlt (by omega)
    · next page _ hcons =>
      refine ⟨fun h => absurd h (Option.some_ne_none _), fun h => ?_⟩
      rw [h current (Nat.le_refl _) (by omega)] at hcons
      cases hcons

theorem rmqueueFallbackLoop_eq_none {n : Nat} :
    rmqueueFallbackLoop zr order t disabled n z = none ↔
      ∀ c, order ≤ c → c < n → ∀ u ∈ fallbacks t, u ≠ .reserve → z.freeList c u = [] := by
  induction n with
  | zero => exact ⟨fun _ c _ h2 => absurd h2 (Nat.not_lt_zero c), fun _ => rfl⟩
  | succ n ih =>
    rw [rmqueueFallbackLoop]
    split
    · next hle =>
      split
      · next hfind =>
        rw [List.find?_eq_none] at hfind
        rw [ih]
        refine ⟨fun h c h1 h2 u hu hne => ?_, fun h c h1 h2 => h c h1 (by omega)⟩
        rcases Nat.lt_succ_iff_lt_or_eq.mp h2 with hlt | rfl
        · exact h c h1 hlt u hu hne
        · have hno := hfind u hu
          simp only [decide_eq_true_eq, not_and, Decidable.not_not] at hno
          exact hno hne
      · next u hfind =>
        have hu := List.find?_some hfind
        simp only [decide_eq_true_eq] at hu
        constructor
        · intro h
          rw [Option.map_eq_none_iff, List.head?_eq_none_iff] at h
          exact absurd h hu.2
        · intro h
          exact absurd (h n hle (Nat.lt_succ_self n) u (List.mem_of_find?_eq_some hfind) hu.1) hu.2
    · next hlt =>
      exact ⟨fun _ c h1 h2 => by omega, fun _ => rfl⟩

private theorem rmqueueSmallest_eq_none (ho : order < zr.maxOrder) :
    rmqueueSmallest zr z order t = none ↔
      ∀ c, order ≤ c → c < zr.maxOrder → z.freeList c t = [] := by
  rw [rmqueueSmallest, rmqueueSmallestLoop_eq_none, Nat.add_sub_cancel' (Nat.le_of_lt ho)]

/-- The types that `__rmqueue` allocates for. -/
def MigrateType.Requestable (t : MigrateType) : Prop :=
  t = .unmovable ∨ t = .reclaimable ∨ t = .movable

private theorem MigrateType.Requestable.cover (ht : t.Requestable) {u : MigrateType}
    (hu : u ≠ .isolate) : u = t ∨ (u ∈ fallbacks t ∧ u ≠ .reserve) ∨ u = .reserve := by
  rcases ht with rfl | rfl | rfl <;> cases u <;> simp_all [fallbacks]

/-- `__rmqueue` fails when the lists from the asked order up are empty, those of isolated
pageblocks apart. -/
theorem rmqueue_eq_none (ht : t.Requestable) (ho : order < zr.maxOrder) :
    rmqueue zr z order t disabled = none ↔
      ∀ c, order ≤ c → c < zr.maxOrder → ∀ u, u ≠ .isolate → z.freeList c u = [] := by
  have htr : t ≠ .reserve := by rcases ht with rfl | rfl | rfl <;> decide
  have hti : t ≠ .isolate := by rcases ht with rfl | rfl | rfl <;> decide
  have hfi : ∀ u ∈ fallbacks t, u ≠ .isolate := by
    rcases ht with rfl | rfl | rfl <;> decide
  constructor
  · intro h c h1 h2 u hu
    rw [rmqueue] at h
    split at h
    · cases h
    · next hown =>
      rw [if_neg htr] at h
      split at h
      · cases h
      · next hfall =>
        rcases ht.cover hu with rfl | ⟨hmem, hne⟩ | rfl
        · exact (rmqueueSmallest_eq_none ho).mp hown c h1 h2
        · exact rmqueueFallbackLoop_eq_none.mp hfall c h1 h2 u hmem hne
        · exact (rmqueueSmallest_eq_none ho).mp h c h1 h2
  · intro h
    have hown : rmqueueSmallest zr z order t = none :=
      (rmqueueSmallest_eq_none ho).mpr fun c h1 h2 => h c h1 h2 t hti
    have hfall : rmqueueFallback zr z order t disabled = none :=
      rmqueueFallbackLoop_eq_none.mpr fun c h1 h2 u hu _ => h c h1 h2 u (hfi u hu)
    have hres : rmqueueSmallest zr z order .reserve = none :=
      (rmqueueSmallest_eq_none ho).mpr fun c h1 h2 => h c h1 h2 .reserve (by decide)
    rw [rmqueue, hown, if_neg htr, hfall, hres]

/-- What `__rmqueue` returns starts a block of at least the asked order on one of the lists. -/
theorem rmqueue_mem {r : Nat × Zone}
    (h : rmqueue zr z order t disabled = some r) : ∃ c u, order ≤ c ∧ r.1 ∈ z.freeList c u := by
  rw [rmqueue] at h
  split at h
  · next hs =>
    cases h
    obtain ⟨c, hc, hmem, _⟩ := rmqueueSmallestLoop_some hs
    exact ⟨c, t, hc, hmem⟩
  · split at h
    · cases h
    · split at h
      · next hf =>
        cases h
        obtain ⟨c, u, hc, hmem, _⟩ := rmqueueFallbackLoop_some hf
        exact ⟨c, u, hc, hmem⟩
      · obtain ⟨c, hc, hmem, _⟩ := rmqueueSmallestLoop_some h
        exact ⟨c, .reserve, hc, hmem⟩

/-! ### Free pages -/

/-- The page lies in a block on one of the lists. -/
def Zone.FreePage (z : Zone) (q : Nat) : Prop := ∃ o, ∃ p ∈ z.blocks o, p ≤ q ∧ q < p + 2 ^ o

/-- The lists hold the pages of the set. -/
theorem Canon.freePage_iff (h : Canon zr z G) : z.FreePage q ↔ G q := by
  constructor
  · rintro ⟨o, p, hp, hin⟩
    obtain ⟨hal, hmax⟩ := h.of_order ((h.mem p o).mp hp)
    exact hmax.full q ((div_eq_iff_of_aligned hal).mpr hin)
  · intro hq
    obtain ⟨o, hmax⟩ := exists_max zr.maxOrder_pos hq
    have hal : q / 2 ^ o * 2 ^ o % 2 ^ o = 0 := Nat.mul_mod_left _ _
    refine ⟨o, q / 2 ^ o * 2 ^ o, ?_, ?_⟩
    · rw [h.mem, h.order, mul_pow_div]
      exact ⟨hal, hmax⟩
    · exact (div_eq_iff_of_aligned hal).mp (mul_pow_div (q / 2 ^ o) o).symm

/-- A block on a list contains a run of every smaller order. -/
theorem Canon.isBlock_of_mem {c : Nat} (h : Canon zr z G) (hp : p ∈ z.freeList c t)
    (hc : order ≤ c) : IsBlock G p order := by
  obtain ⟨hal, hmax⟩ := h.of_order (h.order_of_mem hp)
  refine isBlock_iff.mpr ⟨?_, hmax.full.of_le hc⟩
  exact Nat.mod_eq_zero_of_dvd ((Nat.pow_dvd_pow 2 hc).trans (Nat.dvd_of_mod_eq_zero hal))

/-- A free run is part of a block of at least its order on one of the lists. -/
theorem Canon.exists_block (h : Canon zr z G) (ho : order < zr.maxOrder)
    (hp : IsBlock G p order) : ∃ c, order ≤ c ∧ c < zr.maxOrder ∧ z.blocks c ≠ [] := by
  obtain ⟨_, hfull⟩ := isBlock_iff.mp hp
  obtain ⟨c, hc, hmax⟩ := exists_max_above ho hfull
  refine ⟨c, hc, hmax.lt, fun hnil => ?_⟩
  have hmem : p / 2 ^ c * 2 ^ c ∈ z.blocks c := by
    rw [h.mem, h.order, mul_pow_div]
    exact ⟨Nat.mul_mod_left _ _, hmax⟩
  rw [hnil] at hmem
  cases hmem

/-- The lists describe the maximal blocks of the pages that they hold, and no pageblock is
isolated. -/
structure Zone.ListsOk (zr : ZoneRange) (z : Zone) : Prop where
  canon : Canon zr z z.FreePage
  isolate : ∀ o, z.freeList o .isolate = []

/-- `__rmqueue` fails only when there is no free aligned run of the asked order. Otherwise it
returns one, and exactly its pages leave the lists. -/
theorem rmqueue_complete {disabled : Bool} (h : z.ListsOk zr) (ho : order < zr.maxOrder)
    (ht : t.Requestable) :
    (rmqueue zr z order t disabled = none ↔ ¬ ∃ p, IsBlock z.FreePage p order) ∧
      ∀ r, rmqueue zr z order t disabled = some r → IsBlock z.FreePage r.1 order ∧
        ∀ q, r.2.FreePage q ↔ z.FreePage q ∧ ¬ (r.1 ≤ q ∧ q < r.1 + 2 ^ order) := by
  refine ⟨?_, fun r hr => ?_⟩
  · rw [rmqueue_eq_none ht ho]
    constructor
    · rintro hnil ⟨p, hp⟩
      obtain ⟨c, hc, hlt, hne⟩ := h.canon.exists_block ho hp
      obtain ⟨p', hp'⟩ := List.exists_mem_of_ne_nil _ hne
      obtain ⟨u, hu⟩ := mem_blocks.mp hp'
      have hempty : z.freeList c u = [] := by
        by_cases hiso : u = .isolate
        · rw [hiso]
          exact h.isolate c
        · exact hnil c hc hlt u hiso
      rw [hempty] at hu
      cases hu
    · intro hnone c hc _ u _
      refine List.eq_nil_iff_forall_not_mem.mpr fun p hp => hnone ⟨p, ?_⟩
      exact h.canon.isBlock_of_mem hp hc
  · obtain ⟨c, u, hc, hmem⟩ := rmqueue_mem hr
    refine ⟨h.canon.isBlock_of_mem hmem hc, fun q => ?_⟩
    obtain ⟨hal, hcanon⟩ := h.canon.rmqueue hr
    rw [hcanon.freePage_iff, ← div_eq_iff_of_aligned hal]

/-- Two movable pages are free: an unmovable pair is taken from them. -/
theorem rmqueue_complete_pair : ∃ (zr : ZoneRange) (z : Zone), z.ListsOk zr ∧
    rmqueue zr z 1 .unmovable false ≠ none ∧ IsBlock z.FreePage 0 1 := by
  let zr : ZoneRange := ⟨0, 2, 2, 1, by decide⟩
  let z0 : Zone := ⟨fun _ _ => [], fun _ => 0, fun _ => none, fun _ => .movable, fun _ => false⟩
  have hfresh : z0.Fresh := ⟨fun _ _ => rfl, fun _ => rfl, fun _ => rfl, fun _ => rfl⟩
  obtain ⟨z, hz⟩ : ∃ z, buddyStep zr z0 (.free 0 1 .movable false) = some z := ⟨_, rfl⟩
  have hc : Canon zr z fun q => z.free q = true := hfresh.canon.step hz
  have hok : z.ListsOk zr := by
    refine ⟨hc.congr fun q => hc.freePage_iff.symm, fun o => ?_⟩
    cases hz
    show (if o = 1 ∧ MigrateType.isolate = .movable then [0] else []) = []
    exact if_neg fun h => absurd h.2 (by decide)
  have hrun : rmqueue zr z 1 .unmovable false ≠ none := by
    cases hz
    exact Option.some_ne_none _
  refine ⟨zr, z, hok, hrun, ?_⟩
  obtain ⟨r, hr⟩ := Option.ne_none_iff_exists'.mp hrun
  have hb := ((rmqueue_complete hok (by decide) (.inl rfl)).2 r hr).1
  have h0 : r.1 = 0 := by
    cases hz
    cases hr
    rfl
  rw [h0] at hb
  exact hb

end LinuxStm32.Mm
