import LinuxStm32.Base.Dyadic
import LinuxStm32.Mm.PageAlloc

/-!
# The free blocks are the maximal blocks of free pages

`Canon zr z G` says that the lists, counters and marks of a zone describe exactly the maximal
naturally aligned blocks of the set `G` of pages. Unlinking a free block takes its pages out of
`G`, linking a block adds its pages, and moving a block between lists of one order changes
nothing; every function of the allocator is a sequence of such steps. While a block is being
merged or split its pages are in no list, so `G` is the set of free pages without it.
-/

namespace LinuxStm32.Mm

open Base Dyadic

/-- The blocks of an order, over all migrate types. -/
def Zone.blocks (z : Zone) (o : Nat) : List Nat := MigrateType.all.flatMap (z.freeList o)

/-- Lists, counters and marks describe the maximal blocks of `G`. -/
structure Canon (zr : ZoneRange) (z : Zone) (G : Nat → Prop) : Prop where
  order : ∀ p o, z.pageOrder p = some o ↔ p % 2 ^ o = 0 ∧ Max G zr.maxOrder o (p / 2 ^ o)
  mem : ∀ p o, p ∈ z.blocks o ↔ z.pageOrder p = some o
  nodup : ∀ o, (z.blocks o).Nodup
  count : ∀ o, z.nrFree o = ((z.blocks o).length : Nat)
  zone : ∀ q, G q → zr.Has q

variable {zr : ZoneRange} {z : Zone} {G H : Nat → Prop} {p o : Nat} {t : MigrateType}
  {r : Nat × Zone}

/-! ### Lists -/

theorem mem_blocks : p ∈ z.blocks o ↔ ∃ t, p ∈ z.freeList o t := by
  simp only [Zone.blocks, List.mem_flatMap]
  refine ⟨fun ⟨t, _, h⟩ => ⟨t, h⟩, fun ⟨t, h⟩ => ⟨t, ?_, h⟩⟩
  cases t <;> decide

theorem blocks_listDel (z : Zone) (p o : Nat) :
    (listDel z p).blocks o = (z.blocks o).filter (· ≠ p) := by
  simp only [Zone.blocks, listDel, List.filter_flatMap]

private theorem flatMap_cons_perm {f : MigrateType → List Nat} {l : List MigrateType}
    (hl : l.Nodup) (ht : t ∈ l) :
    (l.flatMap fun u => if u = t then p :: f u else f u).Perm (p :: l.flatMap f) := by
  induction l with
  | nil => cases ht
  | cons u l ih =>
    obtain ⟨hu, hl⟩ := List.nodup_cons.mp hl
    simp only [List.flatMap_cons]
    by_cases hut : u = t
    · have hrest : (l.flatMap fun u => if u = t then p :: f u else f u) = l.flatMap f := by
        rw [List.flatMap_def, List.flatMap_def]
        refine congrArg List.flatten (List.map_congr_left fun w hw => if_neg ?_)
        rintro rfl
        exact hu (hut ▸ hw)
      rw [if_pos hut, hrest]
      exact .refl _
    · rw [if_neg hut]
      have ht' := (List.mem_cons.mp ht).resolve_left fun h => hut h.symm
      exact ((ih hl ht').append_left (f u)).trans List.perm_middle

private theorem length_filter_ne {l : List Nat} (hl : l.Nodup) (hp : p ∈ l) :
    l.length = (l.filter (· ≠ p)).length + 1 := by
  have he : l.filter (· ≠ p) = l.erase p := by
    rw [hl.erase_eq_filter]
    exact List.filter_congr fun q _ => decide_not
  rw [he]
  exact (List.perm_cons_erase hp).length_eq

theorem blocks_listAdd_self (z : Zone) (p o : Nat) (t : MigrateType) :
    ((listAdd z p o t).blocks o).Perm (p :: z.blocks o) := by
  simp only [Zone.blocks, listAdd, true_and]
  exact flatMap_cons_perm (by decide) (by cases t <;> decide)

theorem blocks_listAdd_of_ne {o' : Nat} (h : o' ≠ o) (z : Zone) (p : Nat) (t : MigrateType) :
    (listAdd z p o t).blocks o' = z.blocks o' := by
  simp only [Zone.blocks, listAdd, h, false_and, ↓reduceIte]

/-! ### Steps -/

theorem Canon.congr (h : Canon zr z G) (hiff : ∀ q, G q ↔ H q) : Canon zr z H := by
  obtain rfl : G = H := funext fun q => propext (hiff q)
  exact h

/-- Canonical form does not depend on the types of pageblocks and on the history. -/
theorem Canon.frame (h : Canon zr z G) (f : Nat → MigrateType) (g : Nat → Bool) :
    Canon zr { z with pageblockType := f, free := g } G :=
  ⟨h.order, h.mem, h.nodup, h.count, h.zone⟩

/-- A marked page is in the set and aligned. -/
theorem Canon.of_order (h : Canon zr z G) (hp : z.pageOrder p = some o) :
    p % 2 ^ o = 0 ∧ Max G zr.maxOrder o (p / 2 ^ o) :=
  (h.order p o).mp hp

/-- A page outside the set is not marked. -/
theorem Canon.order_none (h : Canon zr z G) (hp : ¬ G p) : z.pageOrder p = none := by
  cases ho : z.pageOrder p with
  | none => rfl
  | some o => exact absurd ((h.of_order ho).2.full p rfl) hp

private theorem eq_of_aligned {p' : Nat} (h : p % 2 ^ o = 0) (h' : p' % 2 ^ o = 0)
    (he : p' / 2 ^ o = p / 2 ^ o) : p' = p := by
  rw [← Nat.div_mul_cancel (Nat.dvd_of_mod_eq_zero h'), he,
    Nat.div_mul_cancel (Nat.dvd_of_mod_eq_zero h)]

/-- A free block is unlinked. -/
theorem Canon.unlink (h : Canon zr z G) (hp : z.pageOrder p = some o) :
    Canon zr (rmvPageOrder (addNrFree (listDel z p) o (-1)) p)
      (fun q => G q ∧ q / 2 ^ o ≠ p / 2 ^ o) := by
  obtain ⟨hal, hmax⟩ := h.of_order hp
  have hblocks : ∀ o', (rmvPageOrder (addNrFree (listDel z p) o (-1)) p).blocks o' =
      (z.blocks o').filter (· ≠ p) := blocks_listDel z p
  refine ⟨fun p' o' => ?_, fun p' o' => ?_, fun o' => ?_, fun o' => ?_, fun q hq => h.zone q hq.1⟩
  · rw [hmax.remove_iff]
    by_cases hpp : p' = p
    · subst hpp
      simp only [rmvPageOrder, Function.update_self, reduceCtorEq, false_iff]
      rintro ⟨hal', hmax', hne⟩
      have ho := hp.symm.trans ((h.order p' o').mpr ⟨hal', hmax'⟩)
      cases ho
      exact hne ⟨rfl, rfl⟩
    · simp only [rmvPageOrder, Function.update_of_ne hpp]
      rw [show (addNrFree (listDel z p) o (-1)).pageOrder p' = z.pageOrder p' from rfl, h.order]
      refine ⟨fun hord => ⟨hord.1, hord.2, ?_⟩, fun hord => ⟨hord.1, hord.2.1⟩⟩
      rintro ⟨rfl, he⟩
      exact hpp (eq_of_aligned hal hord.1 he)
  · rw [hblocks, List.mem_filter, h.mem, decide_eq_true_eq]
    by_cases hpp : p' = p
    · subst hpp
      simp [rmvPageOrder]
    · simp [rmvPageOrder, addNrFree, listDel, hpp]
  · rw [hblocks]
    exact (h.nodup o').filter _
  · rw [hblocks]
    by_cases ho : o' = o
    · subst ho
      have hlen := length_filter_ne (h.nodup o') ((h.mem p o').mpr hp)
      simp only [rmvPageOrder, addNrFree, Function.update_self]
      rw [show (listDel z p).nrFree o' = z.nrFree o' from rfl, h.count, hlen]
      omega
    · have hself : (z.blocks o').filter (· ≠ p) = z.blocks o' := by
        refine List.filter_eq_self.mpr fun p' hp' => decide_eq_true ?_
        rintro rfl
        rw [h.mem, hp] at hp'
        exact ho (Option.some.inj hp').symm
      simp only [rmvPageOrder, addNrFree, Function.update_of_ne ho, hself]
      exact h.count o'

/-- A block is linked whose pages are not in the set and whose sibling is not full. -/
theorem Canon.link (h : Canon zr z G) (ho : o < zr.maxOrder) (hal : p % 2 ^ o = 0)
    (hout : ∀ q, q / 2 ^ o = p / 2 ^ o → ¬ G q ∧ zr.Has q)
    (hnext : o + 1 < zr.maxOrder →
      ∃ q, q / 2 ^ (o + 1) = p / 2 ^ o / 2 ∧ q / 2 ^ o ≠ p / 2 ^ o ∧ ¬ G q) (t : MigrateType) :
    Canon zr (freeMerged z p o t) (fun q => G q ∨ q / 2 ^ o = p / 2 ^ o) := by
  have hnone := h.order_none (hout p rfl).1
  have hnot : ∀ o', p ∉ z.blocks o' := fun o' hm => by
    rw [h.mem, hnone] at hm
    cases hm
  have hself : ((freeMerged z p o t).blocks o).Perm (p :: z.blocks o) :=
    blocks_listAdd_self (setPageOrder z p o) p o t
  have hother : ∀ o', o' ≠ o → (freeMerged z p o t).blocks o' = z.blocks o' := fun o' hne =>
    blocks_listAdd_of_ne hne (setPageOrder z p o) p t
  have hpage : ∀ p', (freeMerged z p o t).pageOrder p' =
      if p' = p then some o else z.pageOrder p' := fun p' => by
    simp only [freeMerged, addNrFree, listAdd, setPageOrder, Function.update_apply]
  refine ⟨fun p' o' => ?_, fun p' o' => ?_, fun o' => ?_, fun o' => ?_, ?_⟩
  · rw [hpage, max_insert_iff ho (fun q hq => (hout q hq).1) hnext]
    by_cases hpp : p' = p
    · subst hpp
      rw [if_pos rfl, Option.some.injEq]
      constructor
      · rintro rfl
        exact ⟨hal, .inr ⟨rfl, rfl⟩⟩
      · rintro ⟨-, hm | ⟨rfl, -⟩⟩
        · exact absurd (hm.full p' rfl) (hout p' rfl).1
        · rfl
    · rw [if_neg hpp, h.order]
      refine ⟨fun hm => ⟨hm.1, .inl hm.2⟩, ?_⟩
      rintro ⟨hal', hm | ⟨rfl, he⟩⟩
      · exact ⟨hal', hm⟩
      · exact absurd (eq_of_aligned hal hal' he) hpp
  · rw [hpage]
    by_cases ho' : o' = o
    · subst ho'
      rw [hself.mem_iff, List.mem_cons, h.mem]
      by_cases hpp : p' = p
      · simp [hpp]
      · simp [hpp]
    · rw [hother o' ho', h.mem]
      by_cases hpp : p' = p
      · subst hpp
        rw [if_pos rfl, hnone]
        simp [Ne.symm ho']
      · rw [if_neg hpp]
  · by_cases ho' : o' = o
    · subst ho'
      exact hself.nodup_iff.mpr (List.nodup_cons.mpr ⟨hnot o', h.nodup o'⟩)
    · rw [hother o' ho']
      exact h.nodup o'
  · by_cases ho' : o' = o
    · subst ho'
      rw [hself.length_eq]
      simp only [freeMerged, addNrFree, Function.update_self, List.length_cons]
      rw [show (listAdd (setPageOrder z p o') p o' t).nrFree o' = z.nrFree o' from rfl, h.count]
      omega
    · rw [hother o' ho', ← h.count]
      simp only [freeMerged, addNrFree, Function.update_of_ne ho']
      rfl
  · rintro q (hq | hq)
    · exact h.zone q hq
    · exact (hout q hq).2

/-- A free block is moved to another list of its order. -/
theorem Canon.move (h : Canon zr z G) (hp : z.pageOrder p = some o) (t : MigrateType) :
    Canon zr (listAdd (listDel z p) p o t) G := by
  have hself := blocks_listAdd_self (listDel z p) p o t
  rw [blocks_listDel] at hself
  have hmem := (h.mem p o).mpr hp
  have hother : ∀ o', o' ≠ o → (listAdd (listDel z p) p o t).blocks o' = z.blocks o' := by
    intro o' hne
    rw [blocks_listAdd_of_ne hne, blocks_listDel]
    refine List.filter_eq_self.mpr fun p' hp' => decide_eq_true ?_
    rintro rfl
    rw [h.mem, hp] at hp'
    exact hne (Option.some.inj hp').symm
  have hperm : ∀ o', ((listAdd (listDel z p) p o t).blocks o').Perm (z.blocks o') := by
    intro o'
    by_cases ho' : o' = o
    · subst ho'
      refine (List.perm_ext_iff_of_nodup ?_ (h.nodup o')).mpr fun p' => ?_
      · refine hself.nodup_iff.mpr (List.nodup_cons.mpr ⟨?_, (h.nodup o').filter _⟩)
        simp
      · rw [hself.mem_iff, List.mem_cons, List.mem_filter, decide_eq_true_eq]
        by_cases hpp : p' = p
        · simp [hpp, hmem]
        · simp [hpp]
    · rw [hother o' ho']
  exact ⟨h.order, fun p' o' => (hperm o').mem_iff.trans (h.mem p' o'),
    fun o' => (hperm o').nodup_iff.mpr (h.nodup o'),
    fun o' => by rw [(hperm o').length_eq]; exact h.count o', h.zone⟩

/-! ### Giving back -/

/-- The low bits of a block number, with the bits above `M` cut off. -/
private theorem mul_pow_mod {i M : Nat} (h : o ≤ M) :
    i * 2 ^ o % 2 ^ M = i % 2 ^ (M - o) * 2 ^ o := by
  rw [← Nat.mul_mod_mul_right, ← Nat.pow_add, Nat.sub_add_cancel h]

private theorem mod_pow_two {i n : Nat} (h : 0 < n) : i % 2 ^ n % 2 = i % 2 :=
  Nat.mod_mod_of_dvd i (dvd_pow_self 2 (by omega))

/-- The buddy that `__free_one_page` looks at is the sibling. -/
private theorem pageFindBuddy_eq {i M : Nat} (h : o < M) :
    pageFindBuddy (i * 2 ^ o) (i * 2 ^ o % 2 ^ M) o = sibling i * 2 ^ o := by
  have hpar := @mod_pow_two i (M - o) (by omega)
  have hle := Nat.mod_le i (2 ^ (M - o))
  rw [pageFindBuddy, mul_pow_mod (Nat.le_of_lt h), mul_pow_xor, ← Nat.add_mul, ← Nat.sub_mul]
  congr 1
  unfold sibling
  split <;> split <;> omega

/-- Combining a block with its buddy leads to the block one order up. -/
private theorem findCombinedIndex_eq {i M : Nat} (h : o < M) :
    findCombinedIndex (i * 2 ^ o % 2 ^ M) o = i / 2 * 2 ^ (o + 1) % 2 ^ M ∧
      i * 2 ^ o + findCombinedIndex (i * 2 ^ o % 2 ^ M) o - i * 2 ^ o % 2 ^ M =
        i / 2 * 2 ^ (o + 1) := by
  have hpar := @mod_pow_two i (M - o) (by omega)
  have hle := Nat.mod_le i (2 ^ (M - o))
  have hidx : findCombinedIndex (i * 2 ^ o % 2 ^ M) o =
      i % 2 ^ (M - o) / 2 * 2 ^ (o + 1) := by
    rw [findCombinedIndex, mul_pow_mod (Nat.le_of_lt h), mul_pow_andNot]
  constructor
  · rw [hidx, mul_pow_mod h]
    congr 1
    obtain ⟨n, hn⟩ : ∃ n, M - o = n + 1 := ⟨M - o - 1, by omega⟩
    rw [hn, Nat.pow_succ, Nat.mod_mul_left_div_self, show M - (o + 1) = n by omega]
  · rw [hidx, mul_pow_mod (Nat.le_of_lt h), Nat.pow_succ, Nat.mul_comm (2 ^ o) 2,
      ← Nat.mul_assoc, ← Nat.mul_assoc, ← Nat.add_mul, ← Nat.sub_mul]
    congr 1
    omega

/-- If the sibling is not a free block of the order, one of its pages is not free. -/
private theorem Canon.exists_of_not_buddy {i : Nat} (h : Canon zr z G) (ho : o < zr.maxOrder)
    (hout : ∀ q, q / 2 ^ o = i → ¬ G q ∧ zr.Has q)
    (hb : ¬ pageIsBuddy zr z (i * 2 ^ o) (sibling i * 2 ^ o) o = true) :
    ∃ q, q / 2 ^ (o + 1) = i / 2 ∧ q / 2 ^ o ≠ i ∧ ¬ G q := by
  by_contra hno
  have hfull : Full G o (sibling i) := by
    intro q hq
    by_contra hnot
    refine hno ⟨q, ?_, by rw [hq]; exact sibling_ne i, hnot⟩
    rw [div_pow_succ, hq, sibling_div_two]
  have hself := hout _ (mul_pow_div i o)
  have hmax : Max G zr.maxOrder o (sibling i) := by
    refine hfull.max_of_next (q := i * 2 ^ o) ho ?_ hself.1
    rw [div_pow_succ, mul_pow_div, sibling_div_two]
  have hord : z.pageOrder (sibling i * 2 ^ o) = some o := by
    rw [h.order, mul_pow_div]
    exact ⟨Nat.mul_mod_left _ _, hmax⟩
  have hzone := h.zone _ (hfull _ (mul_pow_div _ o))
  apply hb
  simp only [pageIsBuddy, hord, hself.2, hzone, decide_true, beq_self_eq_true, Bool.and_self]

/-- The merging loop adds the block it is called with. -/
theorem Canon.freeLoop {i : Nat} (fuel : Nat) (t : MigrateType) (h : Canon zr z G)
    (ho : o < zr.maxOrder) (hfuel : zr.maxOrder ≤ fuel + o + 1)
    (hout : ∀ q, q / 2 ^ o = i → ¬ G q ∧ zr.Has q) :
    Canon zr (freeOnePageLoop zr t fuel (i * 2 ^ o) (i * 2 ^ o % 2 ^ zr.maxOrder) o z)
      (fun q => G q ∨ q / 2 ^ o = i) := by
  induction fuel generalizing z G o i with
  | zero =>
    have hlink := h.link (p := i * 2 ^ o) ho (Nat.mul_mod_left _ _)
      (by rw [mul_pow_div]; exact hout) (fun hlt => by omega) t
    rwa [mul_pow_div] at hlink
  | succ fuel ih =>
    simp only [freeOnePageLoop]
    split
    · next hlt =>
      rw [pageFindBuddy_eq ho]
      split
      · next hb =>
        have hord : z.pageOrder (sibling i * 2 ^ o) = some o := by
          simp only [pageIsBuddy, Bool.and_eq_true, beq_iff_eq] at hb
          exact hb.2
        have hfull := (h.of_order hord).2.full
        have hu := h.unlink hord
        rw [mul_pow_div] at hfull hu
        obtain ⟨hidx, hpage⟩ := @findCombinedIndex_eq o i zr.maxOrder ho
        rw [hpage, hidx]
        refine (ih hu hlt (by omega) fun q hq => ?_).congr fun q => ?_
        · rw [div_pow_succ, div_two_eq_iff] at hq
          rcases hq with hq | hq
          · exact ⟨fun hg => (hout q hq).1 hg.1, (hout q hq).2⟩
          · exact ⟨fun hg => hg.2 hq, h.zone q (hfull q hq)⟩
        · rw [div_pow_succ, div_two_eq_iff]
          by_cases hq : q / 2 ^ o = sibling i
          · simp [hq, hfull q hq]
          · simp [hq]
      · next hb =>
        have hlink := h.link (p := i * 2 ^ o) ho (Nat.mul_mod_left _ _)
          (by rw [mul_pow_div]; exact hout) (by
            rw [mul_pow_div]
            exact fun _ => h.exists_of_not_buddy ho hout hb) t
        rwa [mul_pow_div] at hlink
    · next hlt =>
      have hlink := h.link (p := i * 2 ^ o) ho (Nat.mul_mod_left _ _)
        (by rw [mul_pow_div]; exact hout) (fun hlt' => absurd hlt' hlt) t
      rwa [mul_pow_div] at hlink

/-- `__free_one_page` adds its block. -/
theorem Canon.free (h : Canon zr z G) (ho : o < zr.maxOrder) (hal : p % 2 ^ o = 0)
    (hout : ∀ q, q / 2 ^ o = p / 2 ^ o → ¬ G q ∧ zr.Has q) (t : MigrateType) :
    Canon zr (freeOnePage zr z p o t false) (fun q => G q ∨ q / 2 ^ o = p / 2 ^ o) := by
  have hp : p / 2 ^ o * 2 ^ o = p := Nat.div_mul_cancel (Nat.dvd_of_mod_eq_zero hal)
  have hloop := h.freeLoop zr.maxOrder t ho (by omega) hout
  rw [hp] at hloop
  rw [freeOnePage, if_neg (by decide), Nat.and_two_pow_sub_one_eq_mod]
  exact hloop

/-! ### Taking -/

/-- Splitting a block that was taken out puts back all of it but its lowest part. -/
theorem Canon.expand {high low : Nat} (h : Canon zr z G) (hh : high < zr.maxOrder)
    (hle : low ≤ high) (hal : p % 2 ^ high = 0)
    (hout : ∀ q, q / 2 ^ high = p / 2 ^ high → ¬ G q ∧ zr.Has q) (t : MigrateType) :
    Canon zr (expand p low t high z)
      (fun q => G q ∨ q / 2 ^ high = p / 2 ^ high ∧ q / 2 ^ low ≠ p / 2 ^ low) := by
  induction high generalizing z G with
  | zero =>
    obtain rfl : low = 0 := by omega
    refine h.congr fun q => ?_
    simp only [iff_self_or]
    exact fun hq => absurd hq.1 hq.2
  | succ high ih =>
    simp only [Mm.expand]
    split
    · next hlt =>
      have heven : p / 2 ^ high % 2 = 0 := by
        rw [← Nat.mod_mul_right_div_self, ← Nat.pow_succ, hal, Nat.zero_div]
      have hal' : p % 2 ^ high = 0 :=
        Nat.mod_eq_zero_of_dvd ((Nat.pow_dvd_pow 2 (Nat.le_succ high)).trans
          (Nat.dvd_of_mod_eq_zero hal))
      have hupper : (p + 2 ^ high) / 2 ^ high = p / 2 ^ high + 1 :=
        Nat.add_div_right p (Nat.two_pow_pos high)
      have hhalf : ∀ q, q / 2 ^ (high + 1) = p / 2 ^ (high + 1) ↔
          q / 2 ^ high = p / 2 ^ high ∨ q / 2 ^ high = p / 2 ^ high + 1 := by
        intro q
        rw [div_pow_succ, div_pow_succ]
        omega
      have hlink : Canon zr (freeMerged z (p + 2 ^ high) high t)
          (fun q => G q ∨ q / 2 ^ high = p / 2 ^ high + 1) := by
        rw [← hupper]
        refine h.link (by omega) (by rw [Nat.add_mod_right]; exact hal') (fun q hq => ?_)
          (fun _ => ⟨p, ?_, ?_, (hout p rfl).1⟩) t
        · rw [hupper] at hq
          exact hout q ((hhalf q).mpr (.inr hq))
        · rw [hupper, div_pow_succ]
          omega
        · rw [hupper]
          omega
      refine (ih hlink (by omega) (by omega) hal' fun q hq => ?_).congr fun q => ?_
      · have hq' := hout q ((hhalf q).mpr (.inl hq))
        refine ⟨?_, hq'.2⟩
        rintro (hg | hg)
        · exact hq'.1 hg
        · omega
      · have hlow : q / 2 ^ high = p / 2 ^ high + 1 → q / 2 ^ low ≠ p / 2 ^ low := by
          intro hq he
          have := div_eq_of_common (show low ≤ high by omega) rfl rfl he
          omega
        rw [hhalf]
        tauto
    · next hlt =>
      obtain rfl : low = high + 1 := by omega
      refine h.congr fun q => ?_
      simp only [iff_self_or]
      exact fun hq => absurd hq.1 hq.2

/-- Taking a free block and splitting it removes the part that is handed out. -/
theorem Canon.take {current order : Nat} (h : Canon zr z G) (hp : z.pageOrder p = some current)
    (hle : order ≤ current) (t : MigrateType) (g : Nat → MigrateType) :
    Canon zr (Mm.expand p order t current
        { rmvPageOrder (addNrFree (listDel z p) current (-1)) p with pageblockType := g })
      (fun q => G q ∧ q / 2 ^ order ≠ p / 2 ^ order) := by
  obtain ⟨hal, hmax⟩ := h.of_order hp
  have hexp := ((h.unlink hp).frame g z.free).expand hmax.lt hle hal
    (fun q hq => ⟨fun hg => hg.2 hq, h.zone q (hmax.full q hq)⟩) t
  refine hexp.congr fun q => ?_
  have hin : q / 2 ^ order = p / 2 ^ order → q / 2 ^ current = p / 2 ^ current := fun he =>
    div_eq_of_common hle rfl rfl he
  have hfull : q / 2 ^ current = p / 2 ^ current → G q := hmax.full q
  tauto

theorem rmqueueSmallestLoop_some {order n current : Nat}
    (h : rmqueueSmallestLoop order t n current z = some r) :
    ∃ c, current ≤ c ∧ r.1 ∈ z.freeList c t ∧
      r.2 = Mm.expand r.1 order t c (rmvPageOrder (addNrFree (listDel z r.1) c (-1)) r.1) := by
  induction n generalizing current with
  | zero => cases h
  | succ n ih =>
    simp only [rmqueueSmallestLoop] at h
    split at h
    · obtain ⟨c, hc, hr⟩ := ih h
      exact ⟨c, by omega, hr⟩
    · next page _ hl =>
      cases h
      exact ⟨current, Nat.le_refl _, by rw [hl]; exact List.mem_cons_self, rfl⟩

/-- A page on a free list is marked with the order of the list. -/
theorem Canon.order_of_mem (h : Canon zr z G) (hp : p ∈ z.freeList o t) :
    z.pageOrder p = some o :=
  (h.mem p o).mp (mem_blocks.mpr ⟨t, hp⟩)

/-- `__rmqueue_smallest` removes the block it hands out. -/
theorem Canon.rmqueueSmallest {order : Nat} (h : Canon zr z G)
    (hr : rmqueueSmallest zr z order t = some r) : r.1 % 2 ^ order = 0 ∧
      Canon zr r.2 (fun q => G q ∧ q / 2 ^ order ≠ r.1 / 2 ^ order) := by
  obtain ⟨c, hc, hmem, he⟩ := rmqueueSmallestLoop_some hr
  have hord := h.order_of_mem hmem
  refine ⟨Nat.mod_eq_zero_of_dvd ((Nat.pow_dvd_pow 2 hc).trans
    (Nat.dvd_of_mod_eq_zero (h.of_order hord).1)), ?_⟩
  rw [he]
  exact h.take hord hc t z.pageblockType

/-! ### Falling back -/

/-- Moving free blocks changes lists only. The counter of the block about to be taken is already
lowered, so the counters are not those of the lists. -/
private theorem Canon.moveFreepages {n page endPage moved : Nat} (h : Canon zr z G)
    (f : Nat → Int) : ∃ l,
      (Mm.moveFreepages t n page endPage moved { z with nrFree := f }).1 =
        { z with freeList := l, nrFree := f } ∧ Canon zr { z with freeList := l } G := by
  induction n generalizing z page moved with
  | zero => exact ⟨z.freeList, rfl, h⟩
  | succ n ih =>
    simp only [Mm.moveFreepages]
    split
    · split
      · exact ih h
      · next order hord => exact ih (h.move hord t)
    · exact ⟨z.freeList, rfl, h⟩

private theorem Canon.moveFreepagesBlock (h : Canon zr z G) (page : Nat) (f : Nat → Int) : ∃ l,
      (Mm.moveFreepagesBlock zr { z with nrFree := f } page t).1 =
        { z with freeList := l, nrFree := f } ∧ Canon zr { z with freeList := l } G := by
  simp only [Mm.moveFreepagesBlock]
  split
  · exact ⟨z.freeList, rfl, h⟩
  · exact h.moveFreepages f

private theorem changePageblockRange_eq (zr : ZoneRange) (n page : Nat) (z : Zone) :
    ∃ g, changePageblockRange zr n page z = { z with pageblockType := g } := by
  induction n generalizing page z with
  | zero => exact ⟨z.pageblockType, rfl⟩
  | succ n ih =>
    obtain ⟨g, hg⟩ := ih (page + 2 ^ zr.pageblockOrder) (setPageblockMigratetype zr z page)
    exact ⟨g, hg⟩

/-- Taking a block from another type's list removes the block that is handed out. -/
private theorem Canon.rmqueueFallbackTake {order current : Nat} (h : Canon zr z G)
    (hp : z.pageOrder p = some current) (hle : order ≤ current) (start t : MigrateType)
    (disabled : Bool) :
    Canon zr (Mm.rmqueueFallbackTake zr z order current start t disabled p)
      (fun q => G q ∧ q / 2 ^ order ≠ p / 2 ^ order) := by
  have hrest : ∀ (l : Nat → MigrateType → List Nat) (g : Nat → MigrateType) (u : MigrateType),
      Canon zr { z with freeList := l } G → Canon zr (Mm.expand p order u current
        (if zr.pageblockOrder ≤ current then
          changePageblockRange zr (2 ^ (current - zr.pageblockOrder)) p
            (rmvPageOrder (listDel { addNrFree z current (-1) with
              freeList := l, pageblockType := g } p) p)
        else rmvPageOrder (listDel { addNrFree z current (-1) with
              freeList := l, pageblockType := g } p) p))
        (fun q => G q ∧ q / 2 ^ order ≠ p / 2 ^ order) := by
    intro l g u hl
    split
    · obtain ⟨g', hg'⟩ := changePageblockRange_eq zr (2 ^ (current - zr.pageblockOrder)) p
        (rmvPageOrder (listDel { addNrFree z current (-1) with
          freeList := l, pageblockType := g } p) p)
      rw [hg']
      exact hl.take hp hle u g'
    · exact hl.take hp hle u g
  simp only [Mm.rmqueueFallbackTake]
  by_cases hclaim : zr.pageblockOrder / 2 ≤ current ∨ start = .reclaimable ∨ disabled = true
  · simp only [hclaim, ↓reduceIte, true_and]
    obtain ⟨l, he, hl⟩ := h.moveFreepagesBlock (t := start) p (addNrFree z current (-1)).nrFree
    have he' : (Mm.moveFreepagesBlock zr (addNrFree z current (-1)) p start).1 =
        { addNrFree z current (-1) with freeList := l } := he
    rw [he']
    by_cases hmany : 2 ^ (zr.pageblockOrder - 1) ≤
        (Mm.moveFreepagesBlock zr (addNrFree z current (-1)) p start).2 ∨ disabled = true
    · rw [if_pos hmany]
      exact hrest l _ start hl
    · rw [if_neg hmany]
      exact hrest l z.pageblockType start hl
  · simp only [hclaim, ↓reduceIte, false_and]
    exact hrest z.freeList z.pageblockType t h

theorem rmqueueFallbackLoop_some {order n : Nat} {start : MigrateType} {disabled : Bool}
    (h : rmqueueFallbackLoop zr order start disabled n z = some r) :
    ∃ c t, order ≤ c ∧ r.1 ∈ z.freeList c t ∧
      r.2 = Mm.rmqueueFallbackTake zr z order c start t disabled r.1 := by
  induction n with
  | zero => cases h
  | succ n ih =>
    simp only [rmqueueFallbackLoop] at h
    split at h
    · next hle =>
      split at h
      · exact ih h
      · next t _ =>
        obtain ⟨page, hpage, rfl⟩ := Option.map_eq_some_iff.mp h
        exact ⟨n, t, hle, List.mem_of_mem_head? hpage, rfl⟩
    · cases h

/-- `__rmqueue` removes the block it hands out. -/
theorem Canon.rmqueue {order : Nat} {disabled : Bool} (h : Canon zr z G)
    (hr : rmqueue zr z order t disabled = some r) : r.1 % 2 ^ order = 0 ∧
      Canon zr r.2 (fun q => G q ∧ q / 2 ^ order ≠ r.1 / 2 ^ order) := by
  unfold Mm.rmqueue at hr
  split at hr
  · next hs =>
    cases hr
    exact h.rmqueueSmallest hs
  · split at hr
    · cases hr
    · split at hr
      · next hf =>
        cases hr
        obtain ⟨c, u, hc, hmem, he⟩ := rmqueueFallbackLoop_some hf
        have hord := h.order_of_mem hmem
        refine ⟨Nat.mod_eq_zero_of_dvd ((Nat.pow_dvd_pow 2 hc).trans
          (Nat.dvd_of_mod_eq_zero (h.of_order hord).1)), ?_⟩
        rw [he]
        exact h.rmqueueFallbackTake hord hc t u disabled
      · exact h.rmqueueSmallest hr


/-! ### Runs -/

private theorem inBlock_iff {q : Nat} (hal : p % 2 ^ o = 0) :
    inBlock p o q = true ↔ q / 2 ^ o = p / 2 ^ o := by
  rw [div_eq_iff_of_aligned hal, inBlock, Bool.and_eq_true, decide_eq_true_eq, decide_eq_true_eq]

/-- Every call keeps the lists canonical for the pages that are free. -/
theorem Canon.step {z' : Zone} {a : BuddyAct} (h : Canon zr z fun q => z.free q = true)
    (hs : buddyStep zr z a = some z') : Canon zr z' fun q => z'.free q = true := by
  cases a with
  | rmqueue order t disabled =>
    simp only [buddyStep] at hs
    split at hs
    · cases hs
      exact h
    · next r hr =>
      cases hs
      obtain ⟨hal, hc⟩ := h.rmqueue hr
      refine (hc.frame r.2.pageblockType _).congr fun q => ?_
      rw [Bool.and_eq_true, Bool.not_eq_true', ← Bool.not_eq_true, inBlock_iff hal]
  | free page order t bad =>
    simp only [buddyStep] at hs
    split at hs
    · next hok =>
      obtain ⟨ho, hal, hpages⟩ := hok
      cases hs
      have hout : ∀ q, q / 2 ^ order = page / 2 ^ order → ¬ z.free q = true ∧ zr.Has q := by
        intro q hq
        obtain ⟨h1, h2⟩ := (div_eq_iff_of_aligned hal).mp hq
        have hk := hpages (q - page) (by omega)
        rw [Nat.add_sub_cancel' h1] at hk
        exact ⟨by rw [hk.2]; decide, hk.1⟩
      cases bad with
      | true =>
        refine (h.frame z.pageblockType _).congr fun q => ?_
        simp
      | false =>
        have hc := h.free ho hal hout t
        refine (hc.frame _ _).congr fun q => ?_
        rw [Bool.or_eq_true, Bool.not_false, Bool.true_and, inBlock_iff hal]
    · cases hs

/-- A zone without free pages has no free blocks. -/
theorem Zone.Fresh.canon (h : z.Fresh) : Canon zr z fun q => z.free q = true := by
  obtain ⟨hl, hn, ho, hf⟩ := h
  have hblocks : ∀ o, z.blocks o = [] := fun o => by
    simp [Zone.blocks, hl]
  refine ⟨fun p o => ?_, fun p o => ?_, fun o => ?_, fun o => ?_, fun q hq => ?_⟩
  · rw [ho]
    simp only [reduceCtorEq, false_iff]
    intro hm
    have := hm.2.full p rfl
    rw [hf] at this
    cases this
  · rw [hblocks, ho]
    simp
  · rw [hblocks]
    exact List.nodup_nil
  · rw [hblocks, hn]
    rfl
  · rw [hf] at hq
    cases hq

/-- The free blocks, with their orders, are the maximal blocks of free pages; so each free page
is in exactly one of them, no two buddies are both free below the largest order, and `nr_free`
counts the blocks of each order. -/
structure Zone.Canonical (zr : ZoneRange) (z : Zone) : Prop where
  blocks : ∀ p o, p ∈ z.blocks o ↔ IsMaximal (fun q => z.free q = true) zr.maxOrder p o
  unique : ∀ q, z.free q = true → ∃! b : Nat × Nat, b.1 ∈ z.blocks b.2 ∧ b.1 ≤ q ∧
    q < b.1 + 2 ^ b.2
  buddies : ∀ p o, o + 1 < zr.maxOrder → p ∈ z.blocks o → p ^^^ 2 ^ o ∉ z.blocks o
  count : ∀ o, z.nrFree o = ((z.blocks o).length : Nat) ∧ (z.blocks o).Nodup

theorem Canon.canonical (h : Canon zr z fun q => z.free q = true) : z.Canonical zr := by
  have hblocks : ∀ p o, p ∈ z.blocks o ↔
      p % 2 ^ o = 0 ∧ Max (fun q => z.free q = true) zr.maxOrder o (p / 2 ^ o) := fun p o =>
    (h.mem p o).trans (h.order p o)
  refine ⟨fun p o => (hblocks p o).trans isMaximal_iff.symm, fun q hq => ?_,
    fun p o hlt hp hb => ?_,
    fun o => ⟨h.count o, h.nodup o⟩⟩
  · obtain ⟨o, hmax⟩ := exists_max (F := fun q => z.free q = true) zr.maxOrder_pos hq
    have hal : q / 2 ^ o * 2 ^ o % 2 ^ o = 0 := Nat.mul_mod_left _ _
    refine ⟨(q / 2 ^ o * 2 ^ o, o), ⟨(hblocks _ _).mpr ⟨hal, ?_⟩, ?_⟩, ?_⟩
    · rw [mul_pow_div]
      exact hmax
    · exact (div_eq_iff_of_aligned hal).mp (mul_pow_div (q / 2 ^ o) o).symm
    · rintro ⟨p, o'⟩ ⟨hp, hin⟩
      obtain ⟨hal', hmax'⟩ := (hblocks p o').mp hp
      have hq' := (div_eq_iff_of_aligned hal').mpr hin
      obtain ⟨rfl, he⟩ := hmax.eq_of_common hmax' rfl hq'
      rw [← he, Nat.div_mul_cancel (Nat.dvd_of_mod_eq_zero hal')]
  · obtain ⟨hal, hmax⟩ := (hblocks p o).mp hp
    have hsib := ((hblocks _ o).mp hb).2
    have hpp : p / 2 ^ o * 2 ^ o = p := Nat.div_mul_cancel (Nat.dvd_of_mod_eq_zero hal)
    rw [← hpp, mul_pow_xor, mul_pow_div] at hsib
    refine hmax.top hlt fun q hq => ?_
    rw [div_pow_succ, div_two_eq_iff] at hq
    rcases hq with hq | hq
    · exact hmax.full q hq
    · exact hsib.full q hq

/-- After every sequence of calls the free blocks are the maximal blocks of free pages, and they
depend on the set of free pages only. -/
theorem buddy_canonical {zr : ZoneRange} {z : Zone}
    (h : (buddySystem zr).Reach System.Always z) : z.Canonical zr ∧
      ∀ z', (buddySystem zr).Reach System.Always z' → z'.free = z.free →
        ∀ p o, p ∈ z'.blocks o ↔ p ∈ z.blocks o := by
  have hrun : ∀ z, (buddySystem zr).Reach System.Always z → z.Canonical zr := by
    intro z hz
    have hc : Canon zr z fun q => z.free q = true := by
      refine @System.Reach.invariant _ _ _ _ (fun z => Canon zr z fun q => z.free q = true)
        ?_ ?_ z hz
      · exact fun _ hf => hf.canon
      · exact fun _ _ _ hc _ hs => hc.step hs
    exact hc.canonical
  refine ⟨hrun z h, fun z' h' hfree p o => ?_⟩
  rw [(hrun z h).blocks, (hrun z' h').blocks, hfree]

/-- Two blocks of four pages are given back as unmovable; a movable page is then taken from the
second. -/
theorem buddy_canonical_fallback : ∃ (zr : ZoneRange) (z : Zone), z.Canonical zr ∧
    z.blocks 0 = [5] ∧ z.blocks 1 = [6] ∧ z.blocks 2 = [0] := by
  let zr : ZoneRange := ⟨0, 8, 3, 2, by decide⟩
  let z : Zone := ⟨fun _ _ => [], fun _ => 0, fun _ => none, fun _ => .movable, fun _ => false⟩
  have hfresh : (buddySystem zr).Reach System.Always z :=
    .init ⟨fun _ _ => rfl, fun _ => rfl, fun _ => rfl, fun _ => rfl⟩
  have hrun := System.reach_of_exec
    [.free 0 2 .unmovable false, .free 4 2 .unmovable false, .rmqueue 0 .movable false]
    hfresh (fun _ _ _ => trivial) rfl
  exact ⟨zr, _, (buddy_canonical hrun).1, by decide +kernel, by decide +kernel, by decide +kernel⟩

end LinuxStm32.Mm
