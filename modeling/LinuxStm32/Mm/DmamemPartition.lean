import LinuxStm32.Mm.Dmamem
import Mathlib.Data.List.TakeWhile

/-!
# The two lists of the coherent pool partition its area

`Inv` is the representation invariant of `mm/dmamem.c`: free blocks lie in address order
with a gap between any two of them, and free and used blocks tile the area behind the
framebuffer. A call keeps it when the block its fit test selects really has room; the
source compares wrapped sums, so a request near `2 ^ 32` can select a block that has none.
-/

namespace LinuxStm32.Mm

open Base Block

namespace Dmamem

/-- First address behind the framebuffer part. -/
def lo (s : Dmamem) : Nat := s.dmBase + s.dmSzFb

/-- First address behind the area. -/
def hi (s : Dmamem) : Nat := s.dmBase + s.dmSzAll

/-- Representation invariant. The only empty block is the free block of an empty area. -/
structure Inv (s : Dmamem) : Prop where
  szAll : s.dmSzAll < 4294967296
  inside : s.hi ≤ 4294967296
  apart : Apart s.lstFree
  tiles : Tiles (s.lstFree ++ s.lstUsed) s.lo s.hi
  usedPos : ∀ b ∈ s.lstUsed, 0 < b.size
  freePos : ∀ b ∈ s.lstFree, 0 < b.size ∨ s.lo = s.hi

end Dmamem

/-- The block has room for the request, in unbounded arithmetic. -/
def HasRoom (need : Nat) (dm : DmDsc) : Prop :=
  (dm.base + (pageSize - 1)) / pageSize * pageSize + need ≤ dm.stop

/-- The request covers at least one page and the asked size, and the first free block the
fit test accepts really has room for it. Freeing is not restricted. -/
def CallOk (s : Dmamem) : DmCall → Prop
  | .alloc size _ _ => ∀ dm, s.lstFree.find? (fits pageSize (requestSize size.toNat)) = some dm →
      0 < requestSize size.toNat ∧ size.toNat ≤ requestSize size.toNat ∧
        HasRoom (requestSize size.toNat) dm
  | .free _ => True

/-- The pool that `dm_init` sets up satisfies the invariant. -/
theorem inv_dmInit {dmBase dmSzAll dmSzFb : Nat} (h : AreaOk dmBase dmSzAll dmSzFb) :
    (dmInit dmBase dmSzAll dmSzFb true).2.Inv := by
  obtain ⟨-, hw, hf, hi⟩ := h
  by_cases hz : dmSzAll = 0
  · have hb : dmSzFb = 0 := by omega
    have ht : Tiles [] dmBase dmBase := ⟨List.Pairwise.nil, fun a => by simp⟩
    subst hz hb
    exact ⟨hw, hi, List.Pairwise.nil, ht, by simp [dmInit], by simp [dmInit]⟩
  · have hs : wsub dmSzAll dmSzFb = dmSzAll - dmSzFb := wsub_of_le hw hf
    have he : (dmInit dmBase dmSzAll dmSzFb true).2 =
        ⟨dmBase, dmSzAll, dmSzFb, [⟨wadd dmBase dmSzFb, dmSzAll - dmSzFb⟩], []⟩ := by
      simp [dmInit, hz, hs]
    rw [he]
    refine ⟨hw, hi, List.pairwise_singleton _ _, ?_, by simp, ?_⟩
    · by_cases hlt : dmSzFb < dmSzAll
      · have hb : wadd dmBase dmSzFb = dmBase + dmSzFb := wadd_of_lt (by omega)
        have ht := tiles_singleton ⟨dmBase + dmSzFb, dmSzAll - dmSzFb⟩
        have hh : dmBase + dmSzFb + (dmSzAll - dmSzFb) = dmBase + dmSzAll := by omega
        simp only [stop, hh] at ht
        simpa only [hb, List.append_nil, Dmamem.lo, Dmamem.hi] using ht
      · -- an empty area: the one block and the tiled range are both empty
        refine ⟨List.pairwise_singleton _ _, fun a => ?_⟩
        simp only [List.append_nil, List.mem_singleton, exists_eq_left, Has, stop, Dmamem.lo,
          Dmamem.hi]
        omega
    · intro b hb
      simp only [List.mem_singleton] at hb
      simp only [hb, Dmamem.lo, Dmamem.hi]
      omega

/-! ### Allocation -/

private theorem requestAlign_zero : requestAlign 0 = pageSize := rfl

/-- In a block with room the request starts at the first page boundary. -/
private theorem alignedBase_page {need : Nat} {dm : DmDsc} (hn : 0 < need) (hr : HasRoom need dm)
    (hs : dm.stop ≤ 4294967296) :
    alignedBase dm pageSize = (dm.base + (pageSize - 1)) / pageSize * pageSize := by
  have hr' : (dm.base + 4095) / 4096 * 4096 + need ≤ dm.base + dm.size := hr
  have hs' : dm.base + dm.size ≤ 4294967296 := hs
  simp only [alignedBase, wmul, wsub, wadd, pageSize]
  omega

section Carve

variable {align a need : Nat} {dm : DmDsc}

/-- With room for the request at `a` no sum of the carving wraps, and the two remainders, if any,
go back to the free list. -/
theorem carve_at (hA : alignedBase dm align = a) (ha : dm.base ≤ a) (hr : a + need ≤ dm.stop)
    (hn : 0 < need) (hs : dm.stop ≤ 4294967296) (hw : dm.size < 4294967296) :
    carve align need dm =
      ((if a ≠ dm.base then [⟨dm.base, a - dm.base⟩] else []) ++
        (if a + need < dm.stop then [⟨a + need, dm.stop - (a + need)⟩] else []), ⟨a, need⟩) := by
  have hr' : a + need ≤ dm.base + dm.size := hr
  have hs' : dm.base + dm.size ≤ 4294967296 := hs
  have hd : wsub a dm.base = a - dm.base := wsub_of_le (by omega) (by omega)
  have hsum : wadd (a - dm.base) need = a - dm.base + need := wadd_of_lt (by omega)
  have hcut : wsub dm.size (a - dm.base) = dm.size - (a - dm.base) :=
    wsub_of_le hw (by omega)
  have hsplit : (a - dm.base + need < dm.size) ↔ a + need < dm.stop := by
    simp only [stop]; omega
  simp only [carve, hA, hd, hsum, hcut, hsplit]
  by_cases hb : a = dm.base
  · subst hb
    simp only [ne_eq, not_true_eq_false, ↓reduceIte, List.nil_append]
    split
    · next hlt =>
      simp only [stop] at hlt
      rw [wadd_of_lt (by omega), wsub_of_le hw (by omega)]
      simp only [stop, Prod.mk.injEq, List.cons.injEq, Block.mk.injEq, and_true, true_and]
      omega
    · next hlt =>
      simp only [stop] at hlt
      simp only [Prod.mk.injEq, true_and]
      cases dm
      simp only [Block.mk.injEq, true_and]
      simp only at hlt hr'
      omega
  · simp only [ne_eq, hb, not_false_eq_true, ↓reduceIte]
    split
    · next hlt =>
      simp only [stop] at hlt
      rw [wadd_of_lt (by omega), wsub_of_le (by omega) (by omega)]
      simp only [stop, Prod.mk.injEq, List.append_cancel_left_eq, List.cons.injEq,
        Block.mk.injEq, and_true, true_and]
      omega
    · next hlt =>
      simp only [stop] at hlt
      simp only [List.append_nil, Prod.mk.injEq, Block.mk.injEq, true_and]
      omega

private theorem tiles_carve {l : List Block} {lo hi : Nat}
    (ha : dm.base ≤ a) (hr : a + need ≤ dm.stop) (ht : Tiles (dm :: l) lo hi) :
    Tiles (((if a ≠ dm.base then [⟨dm.base, a - dm.base⟩] else []) ++
      (if a + need < dm.stop then [⟨a + need, dm.stop - (a + need)⟩] else []) ++
        [⟨a, need⟩]) ++ l) lo hi := by
  simp only [stop] at *
  -- cut off the part before the first page boundary
  have hfront : Tiles (((if a ≠ dm.base then [⟨dm.base, a - dm.base⟩] else []) ++
      [⟨a, dm.size - (a - dm.base)⟩]) ++ l) lo hi := by
    split
    · next hne =>
      change Tiles (⟨dm.base, a - dm.base⟩ :: ⟨a, dm.size - (a - dm.base)⟩ :: l) lo hi
      refine (tiles_join_iff (by simp only [stop]; omega)).mp ?_
      have hsz : a - dm.base + (dm.size - (a - dm.base)) = dm.size := by omega
      simpa only [hsz] using ht
    · next he =>
      have he' : a = dm.base := by simpa using he
      subst he'
      simpa using ht
  generalize (if a ≠ dm.base then [(⟨dm.base, a - dm.base⟩ : Block)] else []) = front at *
  -- then the part behind the request
  by_cases hlt : a + need < dm.base + dm.size
  · have hp : Tiles (⟨a, dm.size - (a - dm.base)⟩ :: (front ++ l)) lo hi := by
      refine hfront.perm ?_
      rw [List.append_assoc]
      exact List.perm_middle
    have hsz : dm.size - (a - dm.base) = need + (dm.base + dm.size - (a + need)) := by omega
    rw [hsz] at hp
    have hc :
        Tiles (⟨a, need⟩ :: ⟨a + need, dm.base + dm.size - (a + need)⟩ :: (front ++ l)) lo hi :=
      (tiles_join_iff (by simp only [stop])).mp hp
    refine hc.perm ?_
    simp only [hlt, ↓reduceIte, List.append_assoc, List.cons_append, List.nil_append]
    exact (List.Perm.swap _ _ _).trans ((List.perm_middle.symm.cons _).trans List.perm_middle.symm)
  · have hsz : dm.size - (a - dm.base) = need := by omega
    simpa only [hsz, hlt, ↓reduceIte, List.append_nil] using hfront

private theorem find_of_dropWhile {p : DmDsc → Bool} {l post : List DmDsc} {dm : DmDsc}
    (h : l.dropWhile (fun d => !p d) = dm :: post) : l.find? p = some dm := by
  induction l with
  | nil => simp at h
  | cons d l ih =>
    by_cases hd : p d
    · simp_all
    · simp_all

/-- What carving leaves in the free list lies inside the block it was carved from, and with
the request it tiles what that block tiled. -/
private theorem carve_spec (hA : alignedBase dm align = a) (ha : dm.base ≤ a)
    (hfit : a + need ≤ dm.stop) (hn : 0 < need) (hs : dm.stop ≤ 4294967296)
    (hw : dm.size < 4294967296) :
    ∃ rest, carve align need dm = (rest, ⟨a, need⟩) ∧ Apart rest ∧
      (∀ b ∈ rest, dm.base ≤ b.base ∧ b.stop ≤ dm.stop ∧ 0 < b.size) ∧
      ∀ l lo hi, Tiles (dm :: l) lo hi → Tiles (rest ++ ⟨a, need⟩ :: l) lo hi := by
  refine ⟨_, carve_at hA ha hfit hn hs hw, ?_, ?_, fun l lo hi ht => ?_⟩
  · refine List.pairwise_append.mpr ⟨by split <;> simp, by split <;> simp, ?_⟩
    intro b hb c hc
    split at hb <;> split at hc <;> simp at hb hc
    subst hb hc
    simp only [stop]
    omega
  · intro b hb
    rcases List.mem_append.mp hb with hb | hb <;> split at hb <;> simp at hb <;> subst hb <;>
      simp only [stop] at * <;> omega
  · simpa only [List.append_assoc, List.singleton_append] using tiles_carve ha hfit ht

end Carve

variable {s : Dmamem} {dm : DmDsc}

/-- A free block of a pool that is not empty lies inside the address space. -/
theorem Dmamem.Inv.free_bounds (hi : s.Inv) (hm : dm ∈ s.lstFree)
    (hpos : 0 < dm.size) : dm.stop ≤ s.hi ∧ dm.stop ≤ 4294967296 ∧ dm.size < 4294967296 := by
  have hb := hi.tiles.bounds (List.mem_append_left _ hm) hpos
  have hin := hi.inside
  have hsz := hi.szAll
  simp only [Dmamem.lo, Dmamem.hi, stop] at *
  omega

/-- Room in the selected block describes the whole result of an allocation that is served:
the used block has the rounded size and the lists still satisfy the invariant. -/
theorem alloc_served (hi : s.Inv) {align a need : Nat}
    {pre post : List DmDsc} (hl : s.lstFree = pre ++ dm :: post) (hn : 0 < need)
    (hA : alignedBase dm align = a) (ha : dm.base ≤ a) (hr : a + need ≤ dm.stop) :
    (carve align need dm).2.size = need ∧
      Dmamem.Inv { s with
        lstFree := pre ++ (carve align need dm).1 ++ post
        lstUsed := (carve align need dm).2 :: s.lstUsed } := by
  have hpos : 0 < dm.size := by
    simp only [stop] at hr
    omega
  have hb := hi.free_bounds (by simp [hl] : dm ∈ s.lstFree) hpos
  obtain ⟨rest, he, hap, hin', ht⟩ := carve_spec hA ha hr hn hb.2.1 hb.2.2
  rw [he]
  refine ⟨rfl, hi.szAll, hi.inside, ?_, ?_, ?_, ?_⟩
  · refine Apart.replace (hl ▸ hi.apart) hap fun b hb => ?_
    exact ⟨(hin' b hb).1, (hin' b hb).2.1⟩
  · refine (ht (pre ++ post ++ s.lstUsed) _ _ (hi.tiles.perm ?_)).perm ?_
    · rw [hl]
      simp only [List.append_assoc, List.cons_append]
      exact List.perm_middle
    · refine List.perm_middle.trans (.trans (.cons _ ?_) List.perm_middle.symm)
      simp only [List.append_assoc]
      exact List.perm_append_comm_assoc _ _ _
  · intro b hm
    rcases List.mem_cons.mp hm with rfl | hm
    · exact hn
    · exact hi.usedPos b hm
  · intro b hm
    simp only [List.append_assoc, List.mem_append] at hm
    rcases hm with hm | hm | hm
    · exact hi.freePos b (by simp [hl, hm])
    · exact .inl (hin' b hm).2.2
    · exact hi.freePos b (by simp [hl, hm])

/-- Everything an allocation can do: fail and leave the pool as it is, or carve the request
out of the first free block its fit test accepts. -/
theorem alloc_cases (s : Dmamem) (size align : Nat) (ndmOk admOk : Bool) :
    dmamemAlloc s size align ndmOk admOk = (none, s) ∨
      ∃ pre dm post, s.lstFree = pre ++ dm :: post ∧
        s.lstFree.find? (fits (requestAlign align) (requestSize size)) = some dm ∧
        dmamemAlloc s size align ndmOk admOk =
          (some (carve (requestAlign align) (requestSize size) dm).2.base, { s with
            lstFree := pre ++ (carve (requestAlign align) (requestSize size) dm).1 ++ post
            lstUsed := (carve (requestAlign align) (requestSize size) dm).2 :: s.lstUsed }) := by
  simp only [dmamemAlloc]
  generalize requestAlign align = al
  generalize requestSize size = need
  have hl : s.lstFree.takeWhile (fun dm => !fits al need dm) ++
      s.lstFree.dropWhile (fun dm => !fits al need dm) = s.lstFree :=
    List.takeWhile_append_dropWhile
  cases hd : s.lstFree.dropWhile (fun dm => !fits al need dm) with
  | nil => exact .inl rfl
  | cons dm post =>
    rw [hd] at hl
    dsimp only
    split
    · exact .inl rfl
    · split
      · exact .inl rfl
      · exact .inr ⟨_, dm, post, hl.symm, find_of_dropWhile hd, rfl⟩

/-- An allocation either leaves the pool as it is or takes one block of the rounded size. -/
theorem inv_dmamemAlloc (hi : s.Inv) (size : UInt32) (ndmOk admOk : Bool)
    (ok : CallOk s (.alloc size ndmOk admOk)) :
    (dmamemAlloc s size.toNat 0 ndmOk admOk).2.Inv ∧
      ∀ base, (dmamemAlloc s size.toNat 0 ndmOk admOk).1 = some base →
        ∃ ndm, (dmamemAlloc s size.toNat 0 ndmOk admOk).2.lstUsed = ndm :: s.lstUsed ∧
          ndm.base = base ∧ size.toNat ≤ ndm.size := by
  rcases alloc_cases s size.toNat 0 ndmOk admOk with he | ⟨pre, dm, post, hl, hf, he⟩
  · rw [he]
    exact ⟨hi, fun _ h => by simp at h⟩
  · rw [requestAlign_zero] at hf he
    obtain ⟨hn, hle, hr⟩ := ok dm hf
    have hpos : 0 < dm.size := by
      simp only [HasRoom, stop, pageSize] at hr
      omega
    have hb := hi.free_bounds (by simp [hl] : dm ∈ s.lstFree) hpos
    have hs := alloc_served hi hl hn (alignedBase_page hn hr hb.2.1)
      (by simp only [pageSize]; omega) hr
    rw [he]
    refine ⟨hs.2, fun base hb => ⟨_, rfl, ?_, ?_⟩⟩
    · exact Option.some.inj hb
    · rw [hs.1]
      exact hle

/-! ### Freeing -/

/-- Joining a block with the free block that follows it; `hw` rules out wrapping. -/
private theorem joinNext_spec {post : List DmDsc} {lo hi : Nat}
    (hap : Apart post) (hle : ∀ f ∈ post, dm.stop ≤ f.base) (hp : ∀ f ∈ dm :: post, 0 < f.size)
    (hb : ∀ f ∈ dm :: post, lo ≤ f.base ∧ f.stop ≤ hi) (hhi : hi ≤ 4294967296)
    (hw : hi - lo < 4294967296) :
    ∃ n rest, joinNext dm post = ⟨dm.base, n⟩ :: rest ∧ Apart (⟨dm.base, n⟩ :: rest) ∧
      (∀ f ∈ (⟨dm.base, n⟩ :: rest : List Block), 0 < f.size) ∧
      ∀ l a b, Tiles (dm :: post ++ l) a b → Tiles (⟨dm.base, n⟩ :: rest ++ l) a b := by
  cases post with
  | nil => exact ⟨dm.size, [], rfl, List.pairwise_singleton _ _, hp, fun l a b ht => ht⟩
  | cons next post =>
    have hd := hb dm (by simp)
    have hx := hb next (by simp)
    have hpn := hp next (by simp)
    have hln := hle next (by simp)
    obtain ⟨hnp, hpost⟩ := List.pairwise_cons.mp hap
    simp only [stop] at hd hx hln
    have hsum : wadd dm.base dm.size = dm.base + dm.size := wadd_of_lt (by omega)
    by_cases ht : dm.base + dm.size = next.base
    · have hsz : wadd dm.size next.size = dm.size + next.size := wadd_of_lt (by omega)
      refine ⟨dm.size + next.size, post, by simp [joinNext, hsum, ht, hsz], ?_, ?_, ?_⟩
      · refine List.pairwise_cons.mpr ⟨fun f hf => ?_, hpost⟩
        have := hnp f hf
        simp only [stop] at this ⊢
        omega
      · intro f hf
        rcases List.mem_cons.mp hf with rfl | hf
        · simp only
          omega
        · exact hp f (by simp [hf])
      · exact fun l a b h => (tiles_join_iff ht).mpr h
    · refine ⟨dm.size, next :: post, by simp [joinNext, hsum, ht], ?_, hp, fun l a b h => h⟩
      refine List.pairwise_cons.mpr ⟨fun f hf => ?_, hap⟩
      rcases List.mem_cons.mp hf with rfl | hf
      · simp only [stop]
        omega
      · have := hnp f hf
        simp only [stop] at this ⊢
        omega

/-- Joining the free block before the insertion point with the block that was inserted. -/
private theorem joinPrev_spec {d : DmDsc} {pre rest : List DmDsc} {lo hi : Nat}
    (hpre : Apart pre) (hap : Apart (d :: rest)) (hle : ∀ f ∈ pre, f.stop ≤ d.base)
    (hp : ∀ f ∈ pre ++ d :: rest, 0 < f.size)
    (hb : ∀ f ∈ pre ++ d :: rest, lo ≤ f.base ∧ f.stop ≤ hi) (hhi : hi ≤ 4294967296)
    (hw : hi - lo < 4294967296) :
    Apart (joinPrev pre (d :: rest)) ∧ (∀ f ∈ joinPrev pre (d :: rest), 0 < f.size) ∧
      ∀ l a b, Tiles (pre ++ d :: rest ++ l) a b → Tiles (joinPrev pre (d :: rest) ++ l) a b := by
  rcases List.eq_nil_or_concat pre with rfl | ⟨init, prev, rfl⟩
  · exact ⟨hap, hp, fun l a b h => h⟩
  · rw [List.concat_eq_append] at *
    have hv := hb prev (by simp)
    have hd := hb d (by simp)
    have hpd := hp d (by simp)
    have hlv := hle prev (by simp)
    simp only [stop] at hv hd hlv
    have hsum : wadd prev.base prev.size = prev.base + prev.size := wadd_of_lt (by omega)
    by_cases ht : prev.base + prev.size = d.base
    · have hsz : wadd prev.size d.size = prev.size + d.size := wadd_of_lt (by omega)
      have he : joinPrev (init ++ [prev]) (d :: rest) =
          init ++ ⟨prev.base, prev.size + d.size⟩ :: rest := by
        simp [joinPrev, hsum, ht, hsz]
      rw [he]
      refine ⟨?_, ?_, fun l a b h => ?_⟩
      · obtain ⟨hdr, hrest⟩ := List.pairwise_cons.mp hap
        obtain ⟨hinit, -, hcross⟩ := List.pairwise_append.mp hpre
        refine List.pairwise_append.mpr ⟨hinit, List.pairwise_cons.mpr ⟨?_, hrest⟩, ?_⟩
        · intro f hf
          have := hdr f hf
          simp only [stop] at this ⊢
          omega
        · intro c hc f hf
          have hcv := hcross c hc prev (by simp)
          rcases List.mem_cons.mp hf with rfl | hf
          · exact hcv
          · have := hdr f hf
            simp only [stop] at this hcv ⊢
            omega
      · intro f hf
        rcases List.mem_append.mp hf with hf | hf
        · exact hp f (by simp [hf])
        · rcases List.mem_cons.mp hf with rfl | hf
          · simp only
            omega
          · exact hp f (by simp [hf])
      · have hc : Tiles (prev :: d :: (init ++ (rest ++ l))) a b := by
          refine h.perm ?_
          simp only [List.append_assoc, List.cons_append, List.nil_append]
          exact List.perm_middle.trans (List.perm_middle.cons _)
        refine ((tiles_join_iff ht).mpr hc).perm ?_
        simp only [List.append_assoc, List.cons_append]
        exact List.perm_middle.symm
    · have he : joinPrev (init ++ [prev]) (d :: rest) = init ++ [prev] ++ d :: rest := by
        simp [joinPrev, hsum, ht]
      rw [he]
      refine ⟨List.pairwise_append.mpr ⟨hpre, hap, ?_⟩, hp, fun l a b h => h⟩
      intro c hc f hf
      -- only the last block before the insertion point can reach up to the inserted one
      have hcd : c.stop < d.base := by
        rcases List.mem_append.mp hc with hc | hc
        · have hcv := (List.pairwise_append.mp hpre).2.2 c hc prev (by simp)
          omega
        · simp only [List.mem_singleton] at hc
          subst hc
          simp only [stop]
          omega
      rcases List.mem_cons.mp hf with rfl | hf
      · exact hcd
      · have := (List.pairwise_cons.mp hap).1 f hf
        simp only [stop] at this hcd ⊢
        omega

/-- A used block lies behind every free block that starts below it and before all others. -/
private theorem free_around {free : List DmDsc} (hap : Apart free)
    (hd : ∀ f ∈ free, f.Disjoint dm) (hp : ∀ f ∈ free, 0 < f.size) (hs : 0 < dm.size) :
    (∀ f ∈ free.takeWhile (fun f => decide (f.base < dm.base)), f.stop ≤ dm.base) ∧
      ∀ f ∈ free.dropWhile (fun f => decide (f.base < dm.base)), dm.stop ≤ f.base := by
  have side (f : DmDsc) (hf : f ∈ free) : f.stop ≤ dm.base ∨ dm.stop ≤ f.base :=
    (hd f hf).stop_le (hp f hf) hs
  constructor
  · intro f hf
    have hlt : f.base < dm.base := by simpa using List.mem_takeWhile_imp hf
    have := side f (List.takeWhile_subset _ hf)
    simp only [stop] at *
    omega
  · intro f hf
    have hge : dm.base ≤ f.base := by
      cases hpost : free.dropWhile (fun f => decide (f.base < dm.base)) with
      | nil => simp [hpost] at hf
      | cons g post =>
        have hg : ¬ g.base < dm.base := by
          have := List.head_dropWhile_not (fun f : DmDsc => decide (f.base < dm.base))
            (by simp [hpost] : free.dropWhile (fun f => decide (f.base < dm.base)) ≠ [])
          simpa [hpost] using this
        have hsub := hap.sublist (List.dropWhile_sublist fun f : DmDsc => decide (f.base < dm.base))
        rw [hpost] at hf hsub
        rcases List.mem_cons.mp hf with rfl | hf
        · omega
        · have := (List.pairwise_cons.mp hsub).1 f hf
          simp only [stop] at this
          omega
    have := side f (List.dropWhile_subset _ hf)
    have := hp f (List.dropWhile_subset _ hf)
    simp only [stop] at *
    omega

/-- Freeing an address of the used list moves its block to the free list. -/
theorem inv_dmamemFree (hi : s.Inv) (base : Nat) : (dmamemFree s base).Inv := by
  unfold dmamemFree
  split
  · exact hi
  · next dm hf =>
    obtain ⟨hdb, as, bs, hu, has⟩ := List.find?_eq_some_iff_append.mp hf
    have hdb' : dm.base = base := by simpa using hdb
    have her : s.lstUsed.eraseP (fun d => d.base == base) = as ++ bs := by
      rw [hu, List.eraseP_append_right _ (by simpa using has)]
      simp [hdb']
    rw [her]
    subst hdb'
    have hmem : dm ∈ s.lstUsed := by simp [hu]
    have hpd := hi.usedPos dm hmem
    have hbd := hi.tiles.bounds (List.mem_append_right _ hmem) hpd
    have hne : s.lo ≠ s.hi := by
      simp only [stop] at hbd
      omega
    have hfree (f : DmDsc) (hm : f ∈ s.lstFree) : 0 < f.size :=
      (hi.freePos f hm).resolve_right hne
    have hdis (f : DmDsc) (hm : f ∈ s.lstFree) : f.Disjoint dm :=
      (List.pairwise_append.mp hi.tiles.disjoint).2.2 f hm dm hmem
    obtain ⟨hbefore, hafter⟩ := free_around hi.apart hdis hfree hpd
    have hsplit : s.lstFree.takeWhile (fun f => decide (f.base < dm.base)) ++
        s.lstFree.dropWhile (fun f => decide (f.base < dm.base)) = s.lstFree :=
      List.takeWhile_append_dropWhile
    generalize s.lstFree.takeWhile (fun f => decide (f.base < dm.base)) = pre at *
    generalize s.lstFree.dropWhile (fun f => decide (f.base < dm.base)) = post at *
    have hap := hi.apart
    rw [← hsplit] at hap hfree
    obtain ⟨hpre, hpost, -⟩ := List.pairwise_append.mp hap
    have hw : s.hi - s.lo < 4294967296 := by
      have := hi.szAll
      simp only [Dmamem.lo, Dmamem.hi]
      omega
    -- the list with the block moved in front of its successors
    have ht : Tiles (dm :: post ++ (pre ++ (as ++ bs))) s.lo s.hi := by
      refine hi.tiles.perm ?_
      rw [hu, ← hsplit, ← List.append_assoc]
      refine List.perm_middle.trans (.cons _ ?_)
      simp only [List.append_assoc]
      exact List.perm_append_comm_assoc _ _ _
    have hpos (f : DmDsc) (hm : f ∈ dm :: post) : 0 < f.size := by
      rcases List.mem_cons.mp hm with rfl | hm
      · exact hpd
      · exact hfree f (by simp [hm])
    obtain ⟨n, rest, hj, hja, hjp, hjt⟩ := joinNext_spec hpost hafter hpos
      (fun f hm => ht.bounds (List.mem_append_left _ hm) (hpos f hm)) hi.inside hw
    have ht2 : Tiles (pre ++ ⟨dm.base, n⟩ :: rest ++ (as ++ bs)) s.lo s.hi := by
      refine (hjt _ _ _ ht).perm ?_
      rw [List.append_assoc pre]
      exact List.perm_append_comm_assoc _ _ _
    have hpos2 (f : DmDsc) (hm : f ∈ pre ++ ⟨dm.base, n⟩ :: rest) : 0 < f.size := by
      rcases List.mem_append.mp hm with hm | hm
      · exact hfree f (by simp [hm])
      · exact hjp f hm
    obtain ⟨h1, h2, h3⟩ := joinPrev_spec hpre hja hbefore hpos2
      (fun f hm => ht2.bounds (List.mem_append_left _ hm) (hpos2 f hm)) hi.inside hw
    dsimp only
    rw [hj]
    refine ⟨hi.szAll, hi.inside, h1, h3 _ _ _ ht2, ?_, fun f hm => .inl (h2 f hm)⟩
    intro f hm
    refine hi.usedPos f ?_
    rw [hu]
    rcases List.mem_append.mp hm with hm | hm
    · simp [hm]
    · simp [hm]

/-! ### Whole runs -/

/-- The shape the pool keeps its lists in: sorted, separate and fully coalesced free blocks
that partition the area together with the used ones. -/
structure PoolOk (s : Dmamem) : Prop where
  sorted : s.lstFree.Pairwise (fun a b => a.base < b.base)
  separate : s.lstFree.Pairwise Disjoint
  coalesced : s.lstFree.IsChain (fun a b => a.stop ≠ b.base)
  partition : Tiles (s.lstFree ++ s.lstUsed) s.lo s.hi

/-- The block an allocation returns covers the asked size and is disjoint from every other
block in use. -/
def AllocFits (s : Dmamem) (size : UInt32) (ndmOk admOk : Bool) : Prop :=
  ∀ base, (dmamemAlloc s size.toNat 0 ndmOk admOk).1 = some base →
    ∃ ndm, (dmamemAlloc s size.toNat 0 ndmOk admOk).2.lstUsed = ndm :: s.lstUsed ∧
      ndm.base = base ∧ size.toNat ≤ ndm.size ∧ ∀ b ∈ s.lstUsed, ndm.Disjoint b

/-- The invariant gives every part of that shape. -/
theorem Dmamem.Inv.poolOk (hi : s.Inv) : PoolOk s where
  sorted := hi.apart.sorted
  separate := (List.pairwise_append.mp hi.tiles.disjoint).1
  coalesced := (hi.apart.imp fun h => Nat.ne_of_lt h).isChain
  partition := hi.tiles

/-- Every call keeps the invariant when its request is served from a block with room. -/
theorem inv_dmStep (hi : s.Inv) (c : DmCall) (ok : CallOk s c) : (dmStep s c).Inv := by
  cases c with
  | alloc size ndmOk admOk => exact (inv_dmamemAlloc hi size ndmOk admOk ok).1
  | free base => exact inv_dmamemFree hi base.toNat

/-- The invariant holds along every run of such calls. -/
theorem inv_of_reach (h : dmSystem.Reach CallOk s) : s.Inv := by
  refine h.invariant ?_ ?_
  · rintro s ⟨dmBase, dmSzAll, dmSzFb, hok, rfl⟩
    exact inv_dmInit hok
  · intro s c s' hi ok he
    cases he
    exact inv_dmStep hi c ok

/-- In every run whose requests are served from blocks with room, the lists are sorted,
coalesced and partition the area, and each allocation returns a block that fits. -/
theorem dmamem_partition {s : Dmamem} (h : dmSystem.Reach CallOk s) :
    PoolOk s ∧ ∀ size ndmOk admOk, CallOk s (.alloc size ndmOk admOk) →
      AllocFits s size ndmOk admOk := by
  have hi := inv_of_reach h
  refine ⟨hi.poolOk, fun size ndmOk admOk ok base hb => ?_⟩
  obtain ⟨hi', hf⟩ := inv_dmamemAlloc hi size ndmOk admOk ok
  obtain ⟨ndm, hu, hbase, hle⟩ := hf base hb
  refine ⟨ndm, hu, hbase, hle, ?_⟩
  have hd := (List.pairwise_append.mp hi'.tiles.disjoint).2.1
  rw [hu] at hd
  exact (List.pairwise_cons.mp hd).1

/-- A pool of sixteen pages, the first of them framebuffer. -/
def smallPool : Dmamem := (dmInit 0x60000000 0x10000 0x1000 true).2

private theorem reach_smallPool (ok : Dmamem → DmCall → Prop) : dmSystem.Reach ok smallPool :=
  .init ⟨0x60000000, 0x10000, 0x1000, ⟨rfl, by decide, by decide, by decide⟩, rfl⟩

/-- One request after the other, each rounded to whole pages of the small pool. -/
theorem dmamem_partition_smallPool :
    PoolOk (dmStep smallPool (.alloc 5000 true true)) ∧
      AllocFits (dmStep smallPool (.alloc 5000 true true)) 8192 true true := by
  have hr : dmSystem.Reach CallOk (dmStep smallPool (.alloc 5000 true true)) := by
    refine .step (reach_smallPool _) (a := .alloc 5000 true true) (fun dm hdm => ?_) rfl
    have hf : smallPool.lstFree.find? (fits pageSize (requestSize (5000 : UInt32).toNat)) =
        some ⟨0x60001000, 0xF000⟩ := by decide
    cases hf.symm.trans hdm
    exact ⟨by decide, by decide, by unfold HasRoom; decide⟩
  obtain ⟨hp, ha⟩ := dmamem_partition hr
  refine ⟨hp, ha 8192 true true fun dm hdm => ?_⟩
  have hf : (dmStep smallPool (.alloc 5000 true true)).lstFree.find?
      (fits pageSize (requestSize (8192 : UInt32).toNat)) = some ⟨0x60003000, 0xD000⟩ := by decide
  cases hf.symm.trans hdm
  exact ⟨by decide, by decide, by unfold HasRoom; decide⟩

/-- Without the room condition neither part holds. A request for no bytes takes an empty
block, which comes back as a second free block at the same address; a request just below
`2 ^ 32` passes the wrapped fit test and gets a block of fifteen pages. -/
theorem dmamem_unchecked_sizes :
    (∃ s, dmSystem.Reach System.Always s ∧ ¬ PoolOk s) ∧
      ∃ s, dmSystem.Reach System.Always s ∧ ¬ AllocFits s 0xFFFFF000 true true := by
  constructor
  · have he : dmSystem.exec smallPool [.alloc 4096 true true, .alloc 0 true true,
        .free 0x60001000, .free 0x60002000, .alloc 4096 true true] =
        some ⟨0x60000000, 0x10000, 0x1000, [⟨0x60002000, 0xE000⟩, ⟨0x60002000, 0⟩],
          [⟨0x60001000, 0x1000⟩]⟩ := by decide +kernel
    refine ⟨_, System.reach_of_exec _ (reach_smallPool _) (fun _ _ _ => trivial) he,
      fun h => ?_⟩
    exact absurd h.sorted (by decide)
  · refine ⟨smallPool, reach_smallPool _, fun h => ?_⟩
    obtain ⟨ndm, hu, -, hle, -⟩ := h 0x60001000 (by decide)
    have hn : (dmamemAlloc smallPool (0xFFFFF000 : UInt32).toNat 0 true true).2.lstUsed =
        [⟨0x60001000, 0xF000⟩] := by decide
    rw [hn] at hu
    cases hu
    exact absurd hle (by decide)

end LinuxStm32.Mm
