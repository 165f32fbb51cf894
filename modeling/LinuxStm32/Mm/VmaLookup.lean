import LinuxStm32.Lib.RbWalk
import LinuxStm32.Mm.VmaTree

/-!
# Looking up mappings by address

The tree of a process's mappings is in the order of their start addresses, whatever calls are
made: `do_mremap` changes the end of a VMA where it is, which spoils the finer order among VMAs
with the same start, but neither lookup relies on that one, and the way down to the place of a new
VMA ends among those with its start.
-/

namespace LinuxStm32.Mm.VmaTree

open Base RedBlack ColorTree Lib

variable {s : MmStruct} {m : RbMem} {l xs ys : List Ptr} {p q : Ptr} {fuel : Nat}
  {f : Ptr → VmArea} {g : VmArea → VmArea}

/-- The tree in memory has these nodes, in this order. -/
def TreeHolds (m : RbMem) (l : List Ptr) : Prop :=
  ∃ t, Rep m t ∧ t.IsRedBlack ∧ t.inorder = l

/-- In the order of their start addresses. -/
def StartSorted (f : Ptr → VmArea) (l : List Ptr) : Prop :=
  l.Pairwise fun x y => (f x).vmStart ≤ (f y).vmStart

theorem StartSorted.around_of_plug {k : List (Frame Ptr)} {c : Color} {tl tr : ColorTree Ptr}
    (h : StartSorted f (plug k (node c tl p tr)).inorder) :
    (∀ x ∈ tl.inorder, (f x).vmStart ≤ (f p).vmStart) ∧
      ∀ x ∈ tr.inorder, (f p).vmStart ≤ (f x).vmStart := by
  rw [inorder_plug, inorder] at h
  have hnode := (List.pairwise_append.mp (List.pairwise_append.mp h).1).2.1
  obtain ⟨-, habove, hbelow⟩ := List.pairwise_append.mp hnode
  exact ⟨fun x hx => hbelow x hx p List.mem_cons_self, (List.pairwise_cons.mp habove).1⟩

theorem StartSorted.insert (h : StartSorted f (xs ++ ys))
    (hbefore : ∀ x ∈ xs, (f x).vmStart ≤ (f p).vmStart)
    (hafter : ∀ x ∈ ys, (f p).vmStart ≤ (f x).vmStart) : StartSorted f (xs ++ p :: ys) := by
  obtain ⟨hxs, hys, hle⟩ := List.pairwise_append.mp h
  refine List.pairwise_append.mpr ⟨hxs, List.pairwise_cons.mpr ⟨hafter, hys⟩, ?_⟩
  intro x hx y hy
  rcases List.mem_cons.mp hy with rfl | hy
  · exact hbefore x hx
  · exact hle x hx y hy

theorem TreeHolds.nodup (h : TreeHolds m l) : l.Nodup := by
  obtain ⟨t, hrep, -, rfl⟩ := h
  exact hrep.nodup

theorem TreeHolds.isAddr (h : TreeHolds m l) (hp : p ∈ l) : Addr p := by
  obtain ⟨t, hrep, -, rfl⟩ := h
  exact hrep.addr p hp

/-- A node outside of the tree may change. -/
theorem TreeHolds.modify {g : RbNode → RbNode} (h : TreeHolds m l) (hp : p ∉ l) :
    TreeHolds (m.modify p g) l := by
  obtain ⟨t, hrep, hblack, rfl⟩ := h
  exact ⟨t, ⟨hrep.root, hrep.tree.modify hp, hrep.nodup, hrep.addr⟩, hblack, rfl⟩

theorem onRb_eq {α : Type} {x : RbM α} {a : α} (h : x s.mmRb = some (a, s.mmRb)) :
    onRb x s = some (a, s) := by
  change (x s.mmRb).map _ = _
  rw [h]
  rfl

theorem runs_onRb {α : Type} {x : RbM α} {Q : α → RbMem → Prop} (h : Runs x s.mmRb Q) :
    Runs (onRb x) s fun a s' => ∃ m', s' = { s with mmRb := m' } ∧ Q a m' :=
  runs_onPart h

/-- Walking in the tree changes nothing. -/
theorem runs_onRb_read {α : Type} {x : RbM α} {Q : α → Prop}
    (h : Runs x s.mmRb fun a m' => Q a ∧ m' = s.mmRb) :
    Runs (onRb x) s fun a s' => Q a ∧ s' = s := by
  obtain ⟨a, m', hx, hq, hm⟩ := h
  rw [hm] at hx
  exact ⟨a, s, onRb_eq hx, hq, rfl⟩

@[simp] theorem setArea_vma_self :
    (s.setArea p g).vma p = g (s.vma p) := by
  simp [MmStruct.setArea]

theorem setArea_vma_of_ne (h : q ≠ p) :
    (s.setArea p g).vma q = s.vma q := by
  simp [MmStruct.setArea, h]

@[simp] theorem setRegion_vma {g : VmRegion → VmRegion} : (s.setRegion p g).vma = s.vma := rfl

/-! ### The place of a new VMA -/

theorem get_linkOf {k : List (Frame Ptr)} {t : ColorTree Ptr} (h : Place m k t) :
    RbLink.get (linkOf k) m = some (rootPtr t, m) := by
  cases k with
  | nil =>
    change some (m.rbNode, m) = _
    rw [show m.rbNode = rootPtr t from h.frames]
  | cons fr k =>
    obtain ⟨side, c, x, b⟩ := fr
    exact (place_near_iff.mpr h).child

theorem start_le_of_sideOf_left (h : sideOf f p q = some .left) :
    (f p).vmStart ≤ (f q).vmStart := by
  unfold sideOf at h
  split at h
  · exact BitVec.le_of_lt ‹_›
  · split at h
    · cases h
    · exact BitVec.not_lt.mp ‹_›

theorem start_le_of_sideOf_right (h : sideOf f p q = some .right) :
    (f q).vmStart ≤ (f p).vmStart := by
  unfold sideOf at h
  split at h
  · cases h
  · exact BitVec.not_lt.mp ‹_›

/-- There is no `BUG()` between two VMAs. -/
theorem exists_sideOf (h : p ≠ q) : ∃ side, sideOf f p q = some side := by
  unfold sideOf
  repeat' split
  all_goals first
    | exact ⟨_, rfl⟩
    | exact absurd (BitVec.le_antisymm (BitVec.not_lt.mp ‹_›) (BitVec.not_lt.mp ‹_›)) (by tauto)

/-- The way down ends at an empty place between the VMAs that start no later and those that start
no earlier. -/
theorem descend_spec {t : ColorTree Ptr} (hrep : Rep s.mmRb t)
    (hsorted : StartSorted s.vma t.inorder)
    (hnew : p ∉ t.inorder) (hfuel : t.inorder.length < fuel) :
    Runs (loopM (descendRound p) fuel (0#32, RbLink.root)) s fun r s' => s' = s ∧
      ∃ k, r = (headPtr k, linkOf k) ∧ t = plug k nil ∧
        (∀ x ∈ before k, (s.vma x).vmStart ≤ (s.vma p).vmStart) ∧
        ∀ x ∈ after k, (s.vma p).vmStart ≤ (s.vma x).vmStart := by
  refine runs_loopM (fun n v s' => s' = s ∧ ∃ k t', v = (headPtr k, linkOf k) ∧ t = plug k t' ∧
    (∀ x ∈ before k, (s.vma x).vmStart ≤ (s.vma p).vmStart) ∧
    (∀ x ∈ after k, (s.vma p).vmStart ≤ (s.vma x).vmStart) ∧ n = t'.inorder.length) ?_
    ⟨rfl, [], t, rfl, rfl, by simp [before], by simp [after], rfl⟩ hfuel
  rintro n v s' ⟨hs, k, t', rfl, rfl, hbefore, hafter, rfl⟩
  rw [hs]
  have hplace := rep_plug_iff.mp hrep
  unfold descendRound
  refine runs_bind_of_eq (onRb_eq (get_linkOf hplace)) ?_
  cases t' with
  | nil =>
    rw [rootPtr, if_pos rfl]
    exact runs_pure ⟨rfl, k, rfl, rfl, hbefore, hafter⟩
  | node c tl x tr =>
    have hx : Addr x := hplace.addr x (by simp [inorder])
    have hne : p ≠ x := by
      rintro rfl
      exact hnew (by simp [inorder_plug, inorder])
    obtain ⟨hbelow, habove⟩ := hsorted.around_of_plug
    obtain ⟨side, hside⟩ := exists_sideOf (f := s.vma) hne
    rw [rootPtr, if_neg hx.ne]
    refine runs_read (a := s) rfl ?_
    refine runs_read (a := side) (by rw [hside]; rfl) ?_
    cases side with
    | left =>
      have hle := start_le_of_sideOf_left hside
      refine runs_pure ⟨tl.inorder.length, ?_, rfl, ⟨.left, c, x, tr⟩ :: k, tl, rfl, rfl, hbefore,
        ?_, rfl⟩
      · simp only [inorder, List.length_append, List.length_cons]
        omega
      · simp only [after, List.cons_append, List.forall_mem_cons, List.forall_mem_append]
        exact ⟨hle, fun y hy => BitVec.le_trans hle (habove y hy), hafter⟩
    | right =>
      have hle := start_le_of_sideOf_right hside
      refine runs_pure ⟨tr.inorder.length, ?_, rfl, ⟨.right, c, x, tl⟩ :: k, tr, rfl, rfl, ?_,
        hafter, rfl⟩
      · simp only [inorder, List.length_append, List.length_cons]
        omega
      · simp only [before, List.forall_mem_append, List.forall_mem_singleton]
        exact ⟨hbefore, fun y hy => BitVec.le_trans (hbelow y hy) hle, hle⟩

/-! ### What adding and deleting do -/

/-- `add_vma_to_mm` puts a new VMA between those that start no later and those that start no
earlier. -/
theorem addVmaToMm_spec (htree : TreeHolds s.mmRb l) (hsorted : StartSorted s.vma l)
    (hp : Addr p) (hnew : p ∉ l) (hregion : (s.vma p).vmRegion ≠ 0#32) (hfuel : l.length < fuel) :
    Runs (addVmaToMm fuel p) s fun _ s' => ∃ m' xs ys, l = xs ++ ys ∧
      TreeHolds m' (xs ++ p :: ys) ∧ StartSorted s.vma (xs ++ p :: ys) ∧
      s' = { s with
        mmRb := m'
        mapCount := s.mapCount + 1
        mmap := listInsert s.vma p s.mmap } := by
  obtain ⟨t, hrep, hblack, rfl⟩ := htree
  unfold addVmaToMm
  refine runs_read (a := s.vma p) rfl ?_
  rw [if_neg hregion]
  refine runs_bind_of_eq (a := ()) rfl ?_
  refine (descend_spec (s := { s with mapCount := s.mapCount + 1 }) hrep hsorted hnew hfuel).then ?_
  rintro r s' ⟨hs, k, rfl, rfl, hbefore, hafter⟩
  rw [hs]
  have hlen := length_le_inorder k (nil : ColorTree Ptr)
  have hinsert := insert_spec hrep hblack hp hnew (show k.length < fuel by omega)
  refine (runs_onRb (s := { s with mapCount := s.mapCount + 1 }) hinsert).then ?_
  rintro _ s'' ⟨m', rfl, htree⟩
  have hl : (plug k nil).inorder = before k ++ after k := by
    rw [inorder_plug, inorder, List.append_nil]
  rw [hl] at hsorted
  refine ⟨(), _, rfl, m', before k, after k, hl, htree, ?_, rfl⟩
  exact hsorted.insert hbefore hafter

/-- `delete_vma_from_mm` takes out the VMA, and nothing else. -/
theorem deleteVmaFromMm_spec (htree : TreeHolds s.mmRb (xs ++ p :: ys))
    (hfuel : 2 * (xs ++ p :: ys).length + 1 < fuel) :
    Runs (deleteVmaFromMm fuel p) s fun _ s' => ∃ m', TreeHolds m' (xs ++ ys) ∧
      s' = { s with
        mmRb := m'
        mapCount := s.mapCount - 1
        mmapCache := if s.mmapCache = p then 0#32 else s.mmapCache
        mmap := s.mmap.erase p } := by
  obtain ⟨t, hrep, hblack, hl⟩ := htree
  have herase := erase_spec hrep hblack hl (hl ▸ hfuel)
  unfold deleteVmaFromMm
  refine runs_bind_of_eq (a := ()) rfl ?_
  refine (runs_onRb (s := { s with
    mapCount := s.mapCount - 1
    mmapCache := if s.mmapCache = p then 0#32 else s.mmapCache }) herase).then ?_
  rintro _ s' ⟨m', rfl, htree⟩
  exact ⟨(), _, rfl, m', htree, rfl⟩

theorem listInsert_perm (f : Ptr → VmArea) (p : Ptr) (l : List Ptr) :
    (listInsert f p l).Perm (p :: l) := by
  induction l with
  | nil => exact .refl _
  | cons q l ih =>
    have hskip : (q :: listInsert f p l).Perm (p :: q :: l) := (ih.cons q).trans (.swap p q l)
    unfold listInsert
    split
    · exact .refl _
    · split
      · exact hskip
      · split
        · exact .refl _
        · exact hskip

/-! ### The invariant -/

/-- The tree, the list, the count and the cache are about the same VMAs; `l` has them in the order
of the tree. -/
structure Consistent (s : MmStruct) (l : List Ptr) : Prop where
  tree : TreeHolds s.mmRb l
  sorted : StartSorted s.vma l
  list : s.mmap.Perm l
  count : s.mapCount = l.length
  cache : s.mmapCache = 0#32 ∨ s.mmapCache ∈ l
  region : ∀ p ∈ l, (s.vma p).vmRegion ≠ 0#32

theorem MmStruct.Empty.consistent (h : s.Empty) : Consistent s [] where
  tree := ⟨nil, ⟨h.1, trivial, List.nodup_nil, nofun⟩, ⟨rfl, trivial, 0, rfl⟩, rfl⟩
  sorted := .nil
  list := by rw [h.2.1]
  count := h.2.2.2
  cache := .inl h.2.2.1
  region := nofun

/-- What is not in the tree may change, and so may the VMAs in it if their starts stay. -/
theorem Consistent.congr {s' : MmStruct} (h : Consistent s l) (htree : TreeHolds s'.mmRb l)
    (hvma : ∀ x ∈ l, (s'.vma x).vmStart = (s.vma x).vmStart ∧ (s'.vma x).vmRegion ≠ 0#32)
    (hlist : s'.mmap = s.mmap) (hcount : s'.mapCount = s.mapCount)
    (hcache : s'.mmapCache = s.mmapCache) : Consistent s' l := by
  refine ⟨htree, ?_, hlist ▸ h.list, hcount ▸ h.count, hcache ▸ h.cache, fun x hx => (hvma x hx).2⟩
  refine h.sorted.imp_of_mem fun {x y} hx hy hle => ?_
  rw [(hvma x hx).1, (hvma y hy).1]
  exact hle

/-- The fields of a VMA may change if it is not in the tree, or if its start stays. -/
theorem Consistent.setArea (h : Consistent s l)
    (hg : p ∈ l → (g (s.vma p)).vmStart = (s.vma p).vmStart ∧ (g (s.vma p)).vmRegion ≠ 0#32) :
    Consistent (s.setArea p g) l := by
  refine h.congr h.tree ?_ rfl rfl rfl
  intro x hx
  by_cases hxp : x = p
  · subst hxp
    simpa using hg hx
  · simpa [setArea_vma_of_ne hxp] using h.region x hx

theorem Consistent.setRegion {g : VmRegion → VmRegion} (h : Consistent s l) :
    Consistent (s.setRegion p g) l :=
  ⟨h.tree, h.sorted, h.list, h.count, h.cache, h.region⟩

theorem Consistent.setCache (h : Consistent s l) (hp : p = 0#32 ∨ p ∈ l) :
    Consistent { s with mmapCache := p } l :=
  ⟨h.tree, h.sorted, h.list, h.count, hp, h.region⟩

/-- Without one VMA, with what is left of the list. -/
theorem Consistent.deleted {rest : List Ptr} (h : Consistent s (xs ++ p :: ys))
    (htree : TreeHolds m (xs ++ ys)) (hrest : rest.Perm (xs ++ ys)) :
    Consistent { s with
      mmRb := m
      mapCount := s.mapCount - 1
      mmapCache := if s.mmapCache = p then 0#32 else s.mmapCache
      mmap := rest } (xs ++ ys) := by
  have hsub : (xs ++ ys).Sublist (xs ++ p :: ys) := (List.sublist_cons_self p ys).append_left xs
  refine ⟨htree, h.sorted.sublist hsub, hrest, ?_, ?_, fun x hx => h.region x (hsub.subset hx)⟩
  · have hcount := h.count
    simp only [List.length_append, List.length_cons] at hcount ⊢
    omega
  · split
    · exact .inl rfl
    · refine h.cache.imp_right fun hmem => ?_
      simp only [List.mem_append, List.mem_cons] at hmem ⊢
      tauto

theorem Consistent.delete (h : Consistent s l) (hp : p ∈ l) (hfuel : 2 * l.length + 1 < fuel) :
    Runs (deleteVmaFromMm fuel p) s fun _ s' => s'.vma = s.vma ∧
      ∃ l', l.Perm (p :: l') ∧ p ∉ l' ∧ l.length = l'.length + 1 ∧ Consistent s' l' := by
  obtain ⟨xs, ys, rfl⟩ := List.append_of_mem hp
  refine (deleteVmaFromMm_spec h.tree hfuel).imp ?_
  rintro _ s' ⟨m', htree, rfl⟩
  have hperm : (xs ++ p :: ys).Perm (p :: (xs ++ ys)) := List.perm_middle
  refine ⟨rfl, xs ++ ys, hperm, (List.nodup_cons.mp (hperm.nodup_iff.mp h.tree.nodup)).1,
    hperm.length_eq, h.deleted htree ?_⟩
  exact List.cons_perm_iff_perm_erase.mp (List.perm_middle.symm.trans h.list.symm) |>.2.symm

theorem Consistent.add (h : Consistent s l) (hp : Addr p) (hnew : p ∉ l)
    (hregion : (s.vma p).vmRegion ≠ 0#32) (hfuel : l.length < fuel) :
    Runs (addVmaToMm fuel p) s fun _ s' => s'.vma = s.vma ∧
      ∃ l', l'.Perm (p :: l) ∧ Consistent s' l' := by
  refine (addVmaToMm_spec h.tree h.sorted hp hnew hregion hfuel).imp ?_
  rintro _ s' ⟨m', xs, ys, rfl, htree, hsorted, rfl⟩
  have hperm : (xs ++ p :: ys).Perm (p :: (xs ++ ys)) := List.perm_middle
  refine ⟨rfl, _, hperm, htree, hsorted, ?_, ?_, ?_, ?_⟩
  · exact (listInsert_perm s.vma p s.mmap).trans ((h.list.cons p).trans hperm.symm)
  · have hcount := h.count
    rw [hperm.length_eq, List.length_cons]
    dsimp only
    omega
  · exact h.cache.imp_right fun hmem => hperm.mem_iff.mpr (List.mem_cons_of_mem p hmem)
  · intro x hx
    rcases List.mem_cons.mp (hperm.mem_iff.mp hx) with rfl | hx
    · exact hregion
    · exact h.region x hx

/-! ### Lookups -/

/-- A VMA with the property is returned if there is one, and `NULL` if there is none. -/
def Finds (hit : VmArea → Bool) (s : MmStruct) (l : List Ptr) (p : Ptr) : Prop :=
  (p ∈ l ∧ hit (s.vma p)) ∨ (p = 0#32 ∧ ∀ q ∈ l, ¬ hit (s.vma q))

/-- What a walk along ascending starts has to say at each VMA so that it finds a VMA with the
property. -/
structure Searches (look : VmArea → Verdict) (hit : VmArea → Bool) : Prop where
  next : ∀ v, look v = .next → ¬ hit v
  found : ∀ v, look v = .found → hit v
  stop : ∀ v w, look v = .stop → v.vmStart ≤ w.vmStart → ¬ hit w

/-- After a lookup only the cache may be another, and it is a VMA of the process. -/
def OnlyCached (s : MmStruct) (l : List Ptr) (s' : MmStruct) : Prop :=
  ∃ c, s' = { s with mmapCache := c } ∧ (c = 0#32 ∨ c ∈ l)

theorem Consistent.onlyCached {s' : MmStruct} (h : Consistent s l) (hs : OnlyCached s l s') :
    Consistent s' l := by
  obtain ⟨c, rfl, hc⟩ := hs
  exact h.setCache hc

theorem Consistent.next (h : Consistent s (xs ++ p :: ys))
    (hfuel : (xs ++ p :: ys).length < fuel) :
    Runs (onRb (rbNext fuel p)) s fun q s' => q = ys.headD 0#32 ∧ s' = s := by
  obtain ⟨t, hrep, -, hl⟩ := h.tree
  obtain ⟨k, c, tl, tr, rfl, -, rfl⟩ := exists_plug_of_split hrep.nodup hl
  exact runs_onRb_read (next_spec (rep_plug_iff.mp hrep) (hl ▸ hfuel))

theorem Consistent.lookup_spec {hit : VmArea → Bool} {look : VmArea → Verdict}
    (hlook : Searches look hit) (h : Consistent s l) (hfuel : l.length < fuel) :
    Runs (lookup fuel hit look) s fun p s' => Finds hit s l p ∧ OnlyCached s l s' := by
  unfold lookup
  refine runs_read (a := s) rfl ?_
  split
  · rename_i hcache
    exact runs_pure ⟨.inl ⟨h.cache.resolve_left hcache.1, hcache.2⟩, s.mmapCache, rfl, h.cache⟩
  · obtain ⟨t, hrep, -, hl⟩ := h.tree
    refine (runs_onRb_read (first_spec hrep (hl ▸ hfuel))).then ?_
    rintro _ s' ⟨rfl, hs⟩
    rw [hs, hl]
    -- every VMA before the one looked at has been passed over
    refine runs_loopM (fun n q s' => s' = s ∧ ∃ xs ys, l = xs ++ ys ∧ q = ys.headD 0#32 ∧
      (∀ x ∈ xs, ¬ hit (s.vma x)) ∧ n = ys.length) ?_ ⟨rfl, [], l, rfl, rfl, nofun, rfl⟩ hfuel
    rintro n q s' ⟨hs, xs, ys, rfl, rfl, hpassed, rfl⟩
    rw [hs]
    unfold walkRound
    cases ys with
    | nil =>
      rw [List.headD, if_pos rfl]
      refine runs_pure ⟨.inr ⟨rfl, ?_⟩, s.mmapCache, rfl, h.cache⟩
      simpa using hpassed
    | cons p ys =>
      have hp : p ∈ xs ++ p :: ys := by simp
      rw [List.headD, if_neg (h.tree.isAddr hp).ne]
      refine runs_read (a := s.vma p) rfl ?_
      cases hv : look (s.vma p) with
      | next =>
        refine (h.next hfuel).then ?_
        rintro _ s' ⟨rfl, hs⟩
        rw [hs]
        refine runs_pure ⟨ys.length, Nat.lt_succ_self _, rfl, xs ++ [p], ys, by simp, rfl, ?_, rfl⟩
        simp only [List.forall_mem_append, List.forall_mem_singleton]
        exact ⟨hpassed, hlook.next _ hv⟩
      | stop =>
        refine runs_pure ⟨.inr ⟨rfl, ?_⟩, s.mmapCache, rfl, h.cache⟩
        have hafter := (List.pairwise_cons.mp (List.pairwise_append.mp h.sorted).2.1).1
        simp only [List.forall_mem_append, List.forall_mem_cons]
        exact ⟨hpassed, hlook.stop _ _ hv (BitVec.le_refl _),
          fun y hy => hlook.stop _ _ hv (hafter y hy)⟩
      | found =>
        refine ⟨_, { s with mmapCache := p }, rfl, .inl ⟨hp, hlook.found _ hv⟩, p, rfl, .inr hp⟩

theorem findLook_searches (addr : BitVec 32) :
    Searches (findLook addr) fun v => v.vmStart ≤ addr ∧ v.vmEnd > addr := by
  refine ⟨?_, ?_, ?_⟩
  · intro v hv
    unfold findLook at hv
    grind
  · intro v hv
    unfold findLook at hv
    grind
  · intro v w hv hle
    unfold findLook at hv
    grind

theorem findExactLook_searches (addr stop : BitVec 32) :
    Searches (findExactLook addr stop) fun v => v.vmStart = addr ∧ v.vmEnd = stop := by
  refine ⟨?_, ?_, ?_⟩
  · intro v hv
    unfold findExactLook at hv
    grind
  · intro v hv
    unfold findExactLook at hv
    grind
  · intro v w hv hle
    unfold findExactLook at hv
    grind

end LinuxStm32.Mm.VmaTree
