import LinuxStm32.Mm.Nommu

/-!
# The pages behind a mapping

What the page loops of `mm/nommu.c` do: freeing a series of held pages, choosing the order of a
block, trimming its excess and giving each page that is kept its reference.
-/

namespace LinuxStm32.Mm

open Base

/-! ### Freeing -/

/-- Freeing held pages gives back exactly these. -/
theorem freePageLoop_held {n p : Nat} {s : Nommu}
    (h : ∀ k, p ≤ k → k < p + n → s.pageCount k = some 1) :
    freePageLoop n p s = { s with
      pageCount := fun k => if p ≤ k ∧ k < p + n then none else s.pageCount k
      mmapPagesAllocated := s.mmapPagesAllocated - n } := by
  induction n generalizing p s with
  | zero =>
    have hnone : ∀ k, ¬ (p ≤ k ∧ k < p + 0) := by omega
    simp only [freePageLoop, hnone, if_false]
    simp
  | succ n ih =>
    have hput : putPage { s with mmapPagesAllocated := s.mmapPagesAllocated - 1 } p = { s with
        pageCount := Function.update s.pageCount p none
        mmapPagesAllocated := s.mmapPagesAllocated - 1 } := by
      simp [putPage, h p (Nat.le_refl _) (by omega)]
    have hrest : ∀ k, p + 1 ≤ k → k < p + 1 + n →
        Function.update s.pageCount p none k = some 1 := by
      intro k hk hlt
      rw [Function.update_of_ne (by omega)]
      exact h k (by omega) (by omega)
    rw [freePageLoop, hput, ih hrest]
    simp only [Nommu.mk.injEq, true_and, and_true]
    constructor
    · push_cast
      omega
    · funext k
      by_cases hk : k = p
      · subst hk
        rw [if_neg (by omega), if_pos (by omega), Function.update_self]
      · rw [Function.update_of_ne hk]
        by_cases hin : p + 1 ≤ k ∧ k < p + 1 + n
        · rw [if_pos hin, if_pos (by omega)]
        · rw [if_neg hin, if_neg (by omega)]

/-- `free_page_series` over page-aligned bounds. -/
theorem freePageSeries_held {s : Nommu} {start stop : Nat} (hs : start % 4096 = 0)
    (he : stop % 4096 = 0) (hle : start ≤ stop)
    (h : ∀ k, start ≤ k * 4096 → k * 4096 < stop → s.pageCount k = some 1) :
    freePageSeries s start stop = { s with
      pageCount := fun k => if start ≤ k * 4096 ∧ k * 4096 < stop then none else s.pageCount k
      mmapPagesAllocated := s.mmapPagesAllocated - ((stop - start) / 4096 : Nat) } := by
  have hn : (stop - start + (pageSize - 1)) / pageSize = (stop - start) / 4096 := by
    simp only [pageSize]
    omega
  have hp : start / pageSize = start / 4096 := rfl
  have hrange : ∀ k, (start / 4096 ≤ k ∧ k < start / 4096 + (stop - start) / 4096) ↔
      start ≤ k * 4096 ∧ k * 4096 < stop := by
    intro k
    omega
  rw [freePageSeries, hn, hp, freePageLoop_held fun k hk hlt => h k (by omega) (by omega)]
  simp only [hrange]

/-! ### The order of a block -/

private theorem getOrderLoop_spec {fuel size : Nat} (h : size < 2 ^ (fuel + 1)) :
    size / 2 < 2 ^ getOrderLoop fuel size := by
  induction fuel generalizing size with
  | zero =>
    simp only [getOrderLoop]
    omega
  | succ fuel ih =>
    simp only [getOrderLoop]
    split
    · omega
    · have := @ih (size / 2) (by rw [Nat.pow_succ] at h; omega)
      rw [Nat.pow_succ]
      omega

/-- The block of `get_order(size)` pages holds `size` bytes. -/
theorem le_getOrder {size : Nat} (h0 : 0 < size) (h : size < 4294967296) :
    size ≤ 2 ^ getOrder size * 4096 := by
  have hlt : wsub size 1 / 2048 < 2 ^ (32 + 1) := by
    have := wsub_lt size 1
    omega
  have hspec := getOrderLoop_spec hlt
  rw [wsub_of_le h h0] at hspec
  rw [getOrder, wsub_of_le h h0]
  omega

/-! ### Trimming -/

private theorem freeBlock_fresh {s : Nommu} {base n : Nat}
    (h : ∀ k < n, s.pageCount (base + k) = some 0) :
    freeBlock s base n = { s with
      pageCount := fun p => if base ≤ p ∧ p < base + n then none else s.pageCount p } := by
  have hgood : ((List.range n).any fun k => s.pageCount (base + k) != some 0) = false := by
    rw [List.any_eq_false]
    intro k hk
    simp [h k (List.mem_range.mp hk)]
  rw [freeBlock, hgood, Bool.or_false]

/-- A chunk is not empty, and at most the excess. -/
theorem chunk_bounds {point total : Nat} (h : point < total) :
    0 < 2 ^ (total - point).log2 ∧ 2 ^ (total - point).log2 ≤ total - point :=
  ⟨Nat.two_pow_pos _, Nat.log2_self_le (by omega)⟩

/-- Trimming gives back the pages from `point` on and keeps the others. -/
theorem trimPages_spec {base point fuel total : Nat} {s : Nommu} (hfuel : total - point ≤ fuel)
    (hle : point ≤ total)
    (h : ∀ k, base + point ≤ k → k < base + total → s.pageCount k = some 0) :
    trimPages base point fuel total s = ({ s with
      pageCount := fun k => if base + point ≤ k ∧ k < base + total then none else s.pageCount k
      mmapPagesAllocated := s.mmapPagesAllocated - (total - point : Nat) }, point) := by
  induction fuel generalizing total s with
  | zero =>
    obtain rfl : total = point := by omega
    have hnone : ∀ k, ¬ (base + total ≤ k ∧ k < base + total) := by omega
    simp [trimPages, hnone]
  | succ fuel ih =>
    by_cases hlt : point < total
    · obtain ⟨hpos, hlog⟩ := chunk_bounds hlt
      generalize hn : 2 ^ (total - point).log2 = n at hpos hlog
      have hfree := @freeBlock_fresh { s with mmapPagesAllocated := s.mmapPagesAllocated - n }
        (base + (total - n)) n fun k hk => h _ (by omega) (by omega)
      rw [trimPages, if_pos hlt]
      dsimp only
      rw [hn, hfree, ih (by omega) (by omega)]
      · simp only [Prod.mk.injEq, Nommu.mk.injEq, true_and, and_true]
        constructor
        · omega
        · funext k
          by_cases hlow : base + point ≤ k ∧ k < base + (total - n)
          · rw [if_pos hlow, if_pos (by omega)]
          · rw [if_neg hlow]
            by_cases hin : base + (total - n) ≤ k ∧ k < base + (total - n) + n
            · rw [if_pos hin, if_pos (by omega)]
            · rw [if_neg hin, if_neg (by omega)]
      · intro k hk hlt
        dsimp only
        rw [if_neg (by omega)]
        exact h k hk (by omega)
    · obtain rfl : total = point := by omega
      have hnone : ∀ k, ¬ (base + total ≤ k ∧ k < base + total) := by omega
      simp [trimPages, hnone]

/-- How many pages a mapping of `rlen` bytes keeps. -/
def keptPages (rlen : Nat) (trim : Int) : Nat :=
  if trim ≠ 0 ∧ toWord trim ≤ wsub (2 ^ getOrder rlen) (rlen / pageSize) then rlen / pageSize
  else 2 ^ getOrder rlen

/-- They hold the bytes, and are part of the block. -/
theorem keptPages_bounds {rlen : Nat} (h0 : 0 < rlen) (h : rlen < 4294967296)
    (hal : rlen % 4096 = 0) (trim : Int) :
    0 < keptPages rlen trim ∧ rlen ≤ keptPages rlen trim * 4096 ∧
      keptPages rlen trim ≤ 2 ^ getOrder rlen := by
  have hord := le_getOrder h0 h
  have hpow := Nat.two_pow_pos (getOrder rlen)
  have hpoint : rlen / pageSize = rlen / 4096 := rfl
  unfold keptPages
  by_cases htrim : trim ≠ 0 ∧ toWord trim ≤ wsub (2 ^ getOrder rlen) (rlen / pageSize)
  · rw [if_pos htrim]
    omega
  · rw [if_neg htrim]
    omega

/-- Once each kept page has its reference, a block that kept its first `total` pages holds exactly
these. -/
private theorem setRefcounted_block {s : Nommu} {base order total k : Nat}
    (h0 : 0 < total) (hle : total ≤ 2 ^ order) :
    (if base < k ∧ k < base + total then some 1
      else if base + total ≤ k ∧ k < base + 2 ^ order then none
      else (allocPages s base order).pageCount k) =
    if base ≤ k ∧ k < base + total then some 1
      else if base + total ≤ k ∧ k < base + 2 ^ order then none else s.pageCount k := by
  simp only [allocPages]
  split_ifs <;> first | rfl | omega

/-- The pages of a mapping of `rlen` bytes: the kept ones have one reference each, the rest of the
block is free, and pages outside the block are as before. -/
theorem mmapPages_spec {s : Nommu} {rlen base : Nat} (h0 : 0 < rlen) (h : rlen < 4294967296)
    (hal : rlen % 4096 = 0) (trim : Int) :
    mmapPages s rlen base trim = ({ s with
      pageCount := fun k =>
        if base ≤ k ∧ k < base + keptPages rlen trim then some 1
        else if base + keptPages rlen trim ≤ k ∧ k < base + 2 ^ getOrder rlen then none
        else s.pageCount k
      mmapPagesAllocated := s.mmapPagesAllocated + (keptPages rlen trim : Nat) },
      keptPages rlen trim) := by
  obtain ⟨hpos, hbytes, hle⟩ := keptPages_bounds h0 h hal trim
  have hpoint : rlen / pageSize ≤ 2 ^ getOrder rlen := by
    have hord := le_getOrder h0 h
    simp only [pageSize]
    omega
  unfold mmapPages
  dsimp only
  split
  · next htrim =>
    have hkept : keptPages rlen trim = rlen / pageSize := if_pos htrim
    rw [hkept] at hpos hle ⊢
    rw [trimPages_spec (Nat.sub_le _ _) hle]
    · simp only [setRefcounted, Prod.mk.injEq, Nommu.mk.injEq, and_true]
      refine ⟨rfl, rfl, ?_, ?_, rfl, rfl⟩
      · have hsub := Int.ofNat_sub hpoint
        rw [Int.natCast_pow, Int.cast_ofNat_Int] at hsub
        simp only [allocPages]
        omega
      · funext k
        exact setRefcounted_block hpos hle
    · intro k hk hlt
      rw [allocPages]
      dsimp only
      rw [if_pos (by omega), if_neg (by omega)]
  · next htrim =>
    have hkept : keptPages rlen trim = 2 ^ getOrder rlen := if_neg htrim
    rw [hkept] at hpos ⊢
    simp only [setRefcounted, Prod.mk.injEq, Nommu.mk.injEq, and_true]
    refine ⟨rfl, rfl, ?_, ?_, rfl, rfl⟩
    · simp only [allocPages]
      rw [Int.natCast_pow]
      rfl
    · funext k
      rw [← setRefcounted_block hpos (Nat.le_refl _)]
      have hnone : ¬ (base + 2 ^ getOrder rlen ≤ k ∧ k < base + 2 ^ getOrder rlen) := by omega
      rw [if_neg hnone]

/-- The pages of a block that kept its first `total` pages of `n`, and the others. -/
theorem block_pages {base total n : Nat} {c : Nat → Option Nat} (h : total ≤ n) (k : Nat) :
    (base ≤ k → k < base + total →
      (if base ≤ k ∧ k < base + total then some 1
        else if base + total ≤ k ∧ k < base + n then none else c k) = some 1) ∧
    (k < base ∨ base + n ≤ k →
      (if base ≤ k ∧ k < base + total then some 1
        else if base + total ≤ k ∧ k < base + n then none else c k) = c k) := by
  refine ⟨fun h1 h2 => if_pos ⟨h1, h2⟩, fun hk => ?_⟩
  rw [if_neg (by omega), if_neg (by omega)]

end LinuxStm32.Mm
