import Mathlib.Data.List.Pairwise

/-!
# Half-open blocks of addresses and lists of blocks that tile a range

A block `⟨b, n⟩` is the set of addresses from `b` up to, not including, `b + n`.
`Tiles l lo hi` says that the blocks of `l`, in any order, are pairwise disjoint and
together are exactly the range from `lo` to `hi`. A list keeps tiling a range when two
adjacent blocks are joined or one block is cut in two; these two facts are all an
allocator needs to keep its free and used blocks a partition.
-/

namespace LinuxStm32.Base

/-- A run of `size` addresses that starts at `base`. -/
structure Block where
  base : Nat
  size : Nat
  deriving DecidableEq, Repr

namespace Block

/-- First address after the block, in unbounded arithmetic. -/
def stop (b : Block) : Nat := b.base + b.size

/-- Membership of an address in a block. -/
def Has (b : Block) (a : Nat) : Prop := b.base ≤ a ∧ a < b.stop

/-- No address lies in both blocks. -/
def Disjoint (b c : Block) : Prop := ∀ a, ¬ (b.Has a ∧ c.Has a)

instance (b : Block) (a : Nat) : Decidable (b.Has a) :=
  inferInstanceAs (Decidable (_ ∧ _))

/-- Disjointness of blocks is symmetric. -/
theorem Disjoint.symm {b c : Block} (h : b.Disjoint c) : c.Disjoint b :=
  fun a ha => h a ⟨ha.2, ha.1⟩

/-- A block that ends where another begins, or before, is disjoint from it. -/
theorem disjoint_of_stop_le {b c : Block} (h : b.stop ≤ c.base) : b.Disjoint c := by
  intro a ⟨hb, hc⟩
  simp only [Has, stop] at *
  omega

/-- Two disjoint nonempty blocks lie on either side of each other. -/
theorem Disjoint.stop_le {b c : Block} (h : b.Disjoint c) (hb : 0 < b.size) (hc : 0 < c.size) :
    b.stop ≤ c.base ∨ c.stop ≤ b.base := by
  have hx := h (max b.base c.base)
  simp only [Has, stop] at *
  omega

/-- The blocks of `l` are pairwise disjoint and together are the range from `lo` to `hi`. -/
structure Tiles (l : List Block) (lo hi : Nat) : Prop where
  disjoint : l.Pairwise Disjoint
  cover : ∀ a, (∃ b ∈ l, b.Has a) ↔ lo ≤ a ∧ a < hi

/-- Tiling does not depend on the order of the blocks. -/
theorem Tiles.perm {l m : List Block} {lo hi : Nat} (h : Tiles l lo hi) (hp : l.Perm m) :
    Tiles m lo hi where
  disjoint := (hp.pairwise_iff Disjoint.symm).mp h.disjoint
  cover a := by
    rw [← h.cover a]
    constructor
    · rintro ⟨b, hb, ha⟩
      exact ⟨b, hp.mem_iff.mpr hb, ha⟩
    · rintro ⟨b, hb, ha⟩
      exact ⟨b, hp.mem_iff.mp hb, ha⟩

/-- One block tiles its own range. -/
theorem tiles_singleton (b : Block) : Tiles [b] b.base b.stop where
  disjoint := List.pairwise_singleton _ _
  cover a := by simp [Has]

private theorem has_join {b c : Block} (h : b.stop = c.base) (a : Nat) :
    (Block.mk b.base (b.size + c.size)).Has a ↔ b.Has a ∨ c.Has a := by
  simp only [Has, stop] at *
  omega

/-- Cutting a block in two, or joining two adjacent blocks, does not change what is tiled. -/
theorem tiles_join_iff {b c : Block} {l : List Block} {lo hi : Nat} (h : b.stop = c.base) :
    Tiles (⟨b.base, b.size + c.size⟩ :: l) lo hi ↔ Tiles (b :: c :: l) lo hi := by
  have hj := has_join h
  have hcover (a : Nat) : (∃ d ∈ (⟨b.base, b.size + c.size⟩ :: l : List Block), d.Has a) ↔
      ∃ d ∈ b :: c :: l, d.Has a := by
    simp only [List.mem_cons, exists_eq_or_imp, hj]
    rw [or_assoc]
  constructor
  · intro ht
    obtain ⟨hd, hl⟩ := List.pairwise_cons.mp ht.disjoint
    refine ⟨?_, fun a => (hcover a).symm.trans (ht.cover a)⟩
    refine List.pairwise_cons.mpr ⟨?_, List.pairwise_cons.mpr ⟨?_, hl⟩⟩
    · intro d hm
      rcases List.mem_cons.mp hm with rfl | hm
      · exact disjoint_of_stop_le (Nat.le_of_eq h)
      · exact fun a ha => hd d hm a ⟨(hj a).mpr (.inl ha.1), ha.2⟩
    · exact fun d hm a ha => hd d hm a ⟨(hj a).mpr (.inr ha.1), ha.2⟩
  · intro ht
    obtain ⟨hb, hcl⟩ := List.pairwise_cons.mp ht.disjoint
    obtain ⟨hc, hl⟩ := List.pairwise_cons.mp hcl
    refine ⟨List.pairwise_cons.mpr ⟨?_, hl⟩, fun a => (hcover a).trans (ht.cover a)⟩
    intro d hm a ha
    rcases (hj a).mp ha.1 with hx | hx
    · exact hb d (List.mem_cons_of_mem _ hm) a ⟨hx, ha.2⟩
    · exact hc d hm a ⟨hx, ha.2⟩

/-- A nonempty block of a tiling lies inside the tiled range. -/
theorem Tiles.bounds {l : List Block} {lo hi : Nat} (h : Tiles l lo hi) {b : Block} (hb : b ∈ l)
    (hs : 0 < b.size) : lo ≤ b.base ∧ b.stop ≤ hi := by
  have h1 := (h.cover b.base).mp ⟨b, hb, by simp only [Has, stop]; omega⟩
  have h2 := (h.cover (b.stop - 1)).mp ⟨b, hb, by simp only [Has, stop]; omega⟩
  simp only [stop] at *
  omega

/-- The blocks lie in address order with a gap between any two of them. -/
def Apart (l : List Block) : Prop := l.Pairwise (fun b c => b.stop < c.base)

/-- Replacing one block by blocks inside it keeps a list apart. -/
theorem Apart.replace {pre post mid : List Block} {b : Block} (h : Apart (pre ++ b :: post))
    (hm : Apart mid) (hi : ∀ c ∈ mid, b.base ≤ c.base ∧ c.stop ≤ b.stop) :
    Apart (pre ++ mid ++ post) := by
  simp only [Apart, List.pairwise_append, List.pairwise_cons, List.mem_append] at *
  obtain ⟨hpre, ⟨hbp, hpost⟩, hcross⟩ := h
  refine ⟨⟨hpre, hm, ?_⟩, hpost, ?_⟩
  · intro c hc d hd
    have h1 := hcross c hc b (by simp)
    have h2 := hi d hd
    omega
  · rintro c (hc | hc) d hd
    · exact hcross c hc d (by simp [hd])
    · have h1 := hbp d hd
      have h2 := hi c hc
      omega

/-- A list that is apart is strictly sorted by base. -/
theorem Apart.sorted {l : List Block} (h : Apart l) :
    l.Pairwise (fun b c => b.base < c.base) := by
  refine h.imp ?_
  intro b c hbc
  simp only [stop] at hbc
  omega

end Block
end LinuxStm32.Base
