import LinuxStm32.Base.Block
import LinuxStm32.Mm.NommuPages

/-!
# The chunks that trimming gives back

`mm/nommu.c:1104–1130`: the excess of a block goes back to the page allocator from its top end,
each time the largest power of two of pages that is not more than what is left. The allocator
takes a chunk only at a page whose number is a multiple of its size.
-/

namespace LinuxStm32.Mm

open Base

/-- The chunks of the trimming loop, in the order in which they are given back. -/
def trimChunks (base point : Nat) : Nat → Nat → List Block
  | 0, _ => []
  | fuel + 1, total =>
    if point < total then
      let n := 2 ^ (total - point).log2
      ⟨base + (total - n), n⟩ :: trimChunks base point fuel (total - n)
    else []

/-- One round of the loop, for the chunk that it gives back. -/
def trimChunk (s : Nommu) (b : Block) : Nommu :=
  freeBlock { s with mmapPagesAllocated := s.mmapPagesAllocated - b.size } b.base b.size

/-- What the allocator needs of a chunk. -/
structure NaturallyAligned (b : Block) : Prop where
  pow : ∃ k, b.size = 2 ^ k
  dvd : b.size ∣ b.base

/-- Some power of two above the excess divides the end of what is held. -/
def TrimInv (base point total : Nat) : Prop :=
  ∃ k, 2 ^ k ∣ base + total ∧ total - point < 2 ^ k

/-! ### The loop -/

/-- The loop gives back its chunks and stops at `point`. -/
theorem trimPages_eq_foldl {base point fuel total : Nat} (s : Nommu)
    (hfuel : total - point ≤ fuel) (hle : point ≤ total) :
    trimPages base point fuel total s =
      ((trimChunks base point fuel total).foldl trimChunk s, point) := by
  induction fuel generalizing total s with
  | zero =>
    obtain rfl : total = point := by omega
    rfl
  | succ fuel ih =>
    unfold trimPages trimChunks
    split_ifs with hlt
    · obtain ⟨hpos, hlog⟩ := chunk_bounds hlt
      rw [List.foldl_cons, ih _ (by omega) (by omega)]
      rfl
    · obtain rfl : total = point := by omega
      rfl

/-- The count of mapped pages goes down by the pages of the chunks. -/
theorem foldl_trimChunk_allocated (l : List Block) (s : Nommu) :
    (l.foldl trimChunk s).mmapPagesAllocated =
      s.mmapPagesAllocated - ((l.map Block.size).sum : Nat) := by
  induction l generalizing s with
  | nil => simp
  | cons b l ih =>
    rw [List.foldl_cons, ih, List.map_cons, List.sum_cons]
    simp only [trimChunk, freeBlock]
    push_cast
    omega

/-! ### One round -/

/-- The chunk at the top is naturally aligned, and what is left has less excess than the chunk. -/
theorem TrimInv.step {base point total : Nat} (h : TrimInv base point total)
    (hlt : point < total) :
    NaturallyAligned ⟨base + (total - 2 ^ (total - point).log2), 2 ^ (total - point).log2⟩ ∧
      TrimInv base point (total - 2 ^ (total - point).log2) := by
  obtain ⟨k, hdvd, hexcess⟩ := h
  have hlog := (chunk_bounds hlt).2
  have hupper : total - point < 2 ^ ((total - point).log2 + 1) := Nat.lt_log2_self
  have hk : (total - point).log2 < k := (Nat.log2_lt (by omega)).mpr hexcess
  -- the power of two divides the end, so it divides the start of the chunk
  have hbase : 2 ^ (total - point).log2 ∣ base + (total - 2 ^ (total - point).log2) := by
    rw [← Nat.add_sub_assoc (by omega)]
    exact Nat.dvd_sub (Nat.dvd_trans (Nat.pow_dvd_pow 2 (Nat.le_of_lt hk)) hdvd) (Nat.dvd_refl _)
  refine ⟨⟨⟨_, rfl⟩, hbase⟩, _, hbase, ?_⟩
  rw [Nat.pow_succ] at hupper
  omega

/-! ### All rounds -/

/-- Every chunk is naturally aligned. -/
theorem trimChunks_aligned {base point fuel total : Nat} (h : TrimInv base point total) :
    ∀ b ∈ trimChunks base point fuel total, NaturallyAligned b := by
  induction fuel generalizing total with
  | zero => simp [trimChunks]
  | succ fuel ih =>
    unfold trimChunks
    split_ifs with hlt
    · obtain ⟨hchunk, hnext⟩ := h.step hlt
      intro b hb
      rcases List.mem_cons.mp hb with rfl | hb
      · exact hchunk
      · exact ih hnext b hb
    · simp

/-- The chunks are disjoint, and together they are the excess. -/
theorem trimChunks_tiles {base point fuel total : Nat} (hfuel : total - point ≤ fuel)
    (hle : point ≤ total) :
    Block.Tiles (trimChunks base point fuel total) (base + point) (base + total) := by
  have hnil : ∀ n, Block.Tiles [] n n := fun n => ⟨.nil, fun a => by simp⟩
  induction fuel generalizing total with
  | zero =>
    obtain rfl : total = point := by omega
    exact hnil _
  | succ fuel ih =>
    unfold trimChunks
    split_ifs with hlt
    · obtain ⟨hpos, hlog⟩ := chunk_bounds hlt
      dsimp only
      generalize 2 ^ (total - point).log2 = n at hpos hlog
      have hrest := @ih (total - n) (by omega) (by omega)
      constructor
      · apply List.pairwise_cons.mpr
        refine ⟨fun c hc a ⟨ha, hca⟩ => ?_, hrest.disjoint⟩
        have hin := (hrest.cover a).mp ⟨c, hc, hca⟩
        simp only [Block.Has, Block.stop] at ha
        omega
      · intro a
        simp only [List.mem_cons, exists_eq_or_imp]
        rw [hrest.cover a]
        simp only [Block.Has, Block.stop]
        omega
    · obtain rfl : total = point := by omega
      exact hnil _

/-- The chunks hold as many pages as the excess. -/
theorem trimChunks_sum {base point fuel total : Nat} (hfuel : total - point ≤ fuel) :
    ((trimChunks base point fuel total).map Block.size).sum = total - point := by
  induction fuel generalizing total with
  | zero =>
    simp only [trimChunks, List.map_nil, List.sum_nil]
    omega
  | succ fuel ih =>
    unfold trimChunks
    split_ifs with hlt
    · obtain ⟨hpos, hlog⟩ := chunk_bounds hlt
      rw [List.map_cons, List.sum_cons, ih (by omega)]
      dsimp only
      omega
    · simp only [List.map_nil, List.sum_nil]
      omega

/-- The trimming of a block of `2 ^ order` pages at a multiple of its size, down to `point` pages:
it stops there, the chunks it gives back are naturally aligned powers of two that are disjoint and
together are the pages from `point` on, and the count goes down by their total. If these pages have
no reference they are free after it, and no other page has changed. -/
theorem trim_loop_correct (order point base fuel : Nat) (s : Nommu) (hpoint : 1 ≤ point)
    (hle : point ≤ 2 ^ order) (hbase : 2 ^ order ∣ base) (hfuel : 2 ^ order - point ≤ fuel) :
    trimPages base point fuel (2 ^ order) s =
        ((trimChunks base point fuel (2 ^ order)).foldl trimChunk s, point) ∧
      (∀ b ∈ trimChunks base point fuel (2 ^ order), NaturallyAligned b) ∧
      Block.Tiles (trimChunks base point fuel (2 ^ order)) (base + point) (base + 2 ^ order) ∧
      ((trimChunks base point fuel (2 ^ order)).map Block.size).sum = 2 ^ order - point ∧
      (trimPages base point fuel (2 ^ order) s).1.mmapPagesAllocated =
        s.mmapPagesAllocated -
          (((trimChunks base point fuel (2 ^ order)).map Block.size).sum : Nat) ∧
      ((∀ k, base + point ≤ k → k < base + 2 ^ order → s.pageCount k = some 0) →
        (trimPages base point fuel (2 ^ order) s).1.badFree = s.badFree ∧
          ∀ k, (trimPages base point fuel (2 ^ order) s).1.pageCount k =
            if base + point ≤ k ∧ k < base + 2 ^ order then none else s.pageCount k) := by
  have hloop := @trimPages_eq_foldl base point fuel (2 ^ order) s hfuel hle
  have hinv : TrimInv base point (2 ^ order) :=
    ⟨order, (Nat.dvd_add_right hbase).mpr (Nat.dvd_refl _), by omega⟩
  refine ⟨hloop, trimChunks_aligned hinv, trimChunks_tiles hfuel hle, trimChunks_sum hfuel, ?_,
    fun hfresh => ?_⟩
  · rw [hloop]
    exact foldl_trimChunk_allocated _ s
  · rw [trimPages_spec hfuel hle hfresh]
    exact ⟨rfl, fun _ => rfl⟩

/-- A state with 8 pages mapped from page 16 on, before any has its own reference. -/
def eightPages : Nommu :=
  allocPages ⟨fun _ => ⟨[], none, 0⟩, [], 0, fun _ => none, false, 0⟩ 16 3

/-- Of these 8 pages 3 are kept: a chunk of 4 pages goes back, then one of 1, and page 19 is
free. -/
theorem trim_loop_three_of_eight :
    trimChunks 16 3 5 8 = [⟨20, 4⟩, ⟨19, 1⟩] ∧ (trimPages 16 3 5 8 eightPages).2 = 3 ∧
      (trimPages 16 3 5 8 eightPages).1.mmapPagesAllocated = 3 ∧
      (trimPages 16 3 5 8 eightPages).1.pageCount 19 = none := by
  have h := trim_loop_correct 3 3 16 5 eightPages (by decide) (by decide) (by decide) (by decide)
  have hchunks : trimChunks 16 3 5 8 = [⟨20, 4⟩, ⟨19, 1⟩] := by decide
  refine ⟨hchunks, congrArg Prod.snd h.1, h.2.2.2.2.1.trans (by decide), ?_⟩
  refine ((h.2.2.2.2.2 fun k hk hlt => ?_).2 19).trans (if_pos (by decide))
  change (if 16 ≤ k ∧ k < 16 + 2 ^ 3 then some (if k = 16 then 1 else 0) else _) = _
  rw [if_pos ⟨by omega, hlt⟩, if_neg (by omega)]

end LinuxStm32.Mm
