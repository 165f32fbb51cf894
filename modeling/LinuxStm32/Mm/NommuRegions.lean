import LinuxStm32.Mm.NommuPages

/-!
# Who owns which pages

Every anonymous mapping is a VMA of one process on a region of its own: a `Piece`. `Owns s l`
says that the pieces of `l` are all there is: their regions are the region tree, their VMAs the
processes' trees, they do not overlap, and each page of each of them is held once. Each call
removes, cuts or adds pieces. The call that breaks this is `do_munmap` with `start + len` past
the end of the address space, which moves the start of a region down; `MunmapOk` excludes it.
-/

namespace LinuxStm32.Mm

open Base

/-- A VMA of process `mm` and the region behind it. -/
structure Piece where
  mm : Nat
  vma : Vma
  region : VmRegion

/-- The VMA is the beginning of its region, which holds whole pages and has one user. -/
structure Piece.Ok (p : Piece) (nextId : Nat) : Prop where
  start : p.vma.vmStart = p.region.vmStart
  nonempty : p.vma.vmStart < p.vma.vmEnd
  inside : p.vma.vmEnd ≤ p.region.vmEnd
  slack : p.region.vmEnd ≤ p.region.vmTop
  bound : p.region.vmTop < 4294967296
  startAligned : p.region.vmStart % 4096 = 0
  topAligned : p.region.vmTop % 4096 = 0
  anon : p.vma.vmFile = false
  link : p.vma.vmRegion = p.region.id
  fresh : p.region.id < nextId
  usage : p.region.vmUsage = 1
  copy : p.region.mappedCopy = true

/-- The regions of two pieces are different structures and do not overlap. -/
def Piece.Apart (p q : Piece) : Prop :=
  (p.region.vmTop ≤ q.region.vmStart ∨ q.region.vmTop ≤ p.region.vmStart) ∧
    p.region.id ≠ q.region.id

/-- Page `k` belongs to the region of the piece. -/
def Piece.Has (p : Piece) (k : Nat) : Prop :=
  p.region.vmStart ≤ k * 4096 ∧ k * 4096 < p.region.vmTop

/-- Number of pages of a region. -/
def VmRegion.pages (r : VmRegion) : Nat := (r.vmTop - r.vmStart) / 4096

/-- The VMAs of process `k`. -/
def vmasOf (l : List Piece) (k : Nat) : List Vma := (l.filter fun p => p.mm = k).map Piece.vma

/-- The pieces of `l` make up the state. -/
structure Owns (s : Nommu) (l : List Piece) : Prop where
  tree : s.regionTree.Perm (l.map Piece.region)
  treeSorted : s.regionTree.Pairwise fun r q => r.vmStart < q.vmStart
  rb : ∀ k, (s.mms k).mmRb.Perm (vmasOf l k)
  rbSorted : ∀ k, (s.mms k).mmRb.Pairwise fun v w => v.vmStart < w.vmStart
  ok : ∀ p ∈ l, p.Ok s.nextId
  apart : l.Pairwise Piece.Apart
  held : ∀ p ∈ l, ∀ k, p.Has k → s.pageCount k = some 1
  total : s.mmapPagesAllocated = ((l.map fun p => p.region.pages).sum : Nat)
  good : s.badFree = false

/-- Every `do_munmap` whose range wraps around is one the code refuses: the range is not page
aligned, no VMA contains its start, or the VMA cannot be split. -/
def MunmapOk (s : Nommu) : NommuAct → Prop
  | .munmap m start len maxMapCount kmem =>
    start + len < 4294967296 ∨ start % pageSize ≠ 0 ∨ wadd start len % pageSize ≠ 0 ∨
      ∀ v, findVma (s.mms m) start = some v →
        start ≠ v.vmStart ∧ ¬ ((s.mms m).mapCount < maxMapCount ∧ kmem = true)
  | _ => True

variable {s s' : Nommu} {l : List Piece} {m : Nat} {v : Vma} {r : VmRegion} {mm : MmStruct}
  {tree : List VmRegion} {rb : List Vma}

/-! ### Lists of pieces -/

theorem Piece.Apart.symm {p q : Piece} (h : p.Apart q) : q.Apart p := ⟨h.1.symm, h.2.symm⟩

theorem vmasOf_cons_self (p : Piece) (l : List Piece) :
    vmasOf (p :: l) p.mm = p.vma :: vmasOf l p.mm := by
  simp [vmasOf]

theorem vmasOf_cons_of_ne {p : Piece} {k : Nat} (h : k ≠ p.mm) (l : List Piece) :
    vmasOf (p :: l) k = vmasOf l k := by
  simp [vmasOf, Ne.symm h]

theorem vmasOf_perm {l l' : List Piece} (h : l.Perm l') (k : Nat) :
    (vmasOf l k).Perm (vmasOf l' k) :=
  (h.filter _).map _

theorem mem_vmasOf {k : Nat} : v ∈ vmasOf l k ↔ ∃ p ∈ l, p.mm = k ∧ p.vma = v := by
  simp [vmasOf, and_assoc]

/-- The order of the pieces does not matter. -/
theorem Owns.perm (h : Owns s l) {l' : List Piece} (hp : l.Perm l') : Owns s l' where
  tree := h.tree.trans (hp.map _)
  treeSorted := h.treeSorted
  rb k := (h.rb k).trans (vmasOf_perm hp k)
  rbSorted := h.rbSorted
  ok p hm := h.ok p (hp.mem_iff.mpr hm)
  apart := (hp.pairwise_iff Piece.Apart.symm).mp h.apart
  held p hm := h.held p (hp.mem_iff.mpr hm)
  total := by
    rw [h.total, (hp.map fun p => p.region.pages).sum_nat]
  good := h.good

/-- Caching a VMA changes nothing that matters. -/
theorem Owns.cache (h : Owns s l) (m : Nat) (v : Vma) : Owns (s.cache m v) l where
  tree := h.tree
  treeSorted := h.treeSorted
  rb k := by
    rw [s.cache_mmRb]
    exact h.rb k
  rbSorted k := by
    rw [s.cache_mmRb]
    exact h.rbSorted k
  ok := h.ok
  apart := h.apart
  held := h.held
  total := h.total
  good := h.good

/-- A VMA of a process can be brought to the front with its region. -/
theorem Owns.front (h : Owns s l) (hv : v ∈ (s.mms m).mmRb) :
    ∃ r l', Owns s (⟨m, v, r⟩ :: l') := by
  classical
  obtain ⟨p, hp, rfl, rfl⟩ := mem_vmasOf.mp ((h.rb m).mem_iff.mp hv)
  exact ⟨p.region, l.erase p, h.perm (List.perm_cons_erase hp)⟩

/-- The region behind the first piece is found by its VMA. -/
theorem Owns.regionOf (h : Owns s (⟨m, v, r⟩ :: l)) : s.regionOf v = some r := by
  have hr : r ∈ s.regionTree := h.tree.mem_iff.mpr List.mem_cons_self
  have hlink := (h.ok _ List.mem_cons_self).link
  cases hf : s.regionOf v with
  | none =>
    have hne : r.id ≠ v.vmRegion := by simpa using List.find?_eq_none.mp hf r hr
    exact absurd hlink.symm hne
  | some q =>
    have hq := List.mem_of_find?_eq_some hf
    have hid : q.id = v.vmRegion := by simpa using List.find?_some hf
    rcases List.mem_cons.mp (h.tree.mem_iff.mp hq) with hqr | hq
    · rw [hqr]
    · obtain ⟨p, hp, rfl⟩ := List.mem_map.mp hq
      have := ((List.pairwise_cons.mp h.apart).1 p hp).2
      exact absurd (hlink.symm.trans hid.symm) this

/-! ### Insertions -/

private theorem addNommuRegion_ok (r : VmRegion)
    (hs : tree.Pairwise fun r q => r.vmStart < q.vmStart)
    (hne : ∀ q ∈ tree, q.vmStart ≠ r.vmStart) : ∃ tree', addNommuRegion tree r = some tree' ∧
      tree'.Perm (r :: tree) ∧ tree'.Pairwise fun r q => r.vmStart < q.vmStart := by
  obtain ⟨tree', he, hs'⟩ := @treeInsert_sorted _ regionCmp r (fun r q => r.vmStart < q.vmStart)
    Nat.lt_trans tree (fun q _ h => Nat.compare_eq_lt.mp h) (fun q _ h => Nat.compare_eq_gt.mp h)
    (fun q hq h => hne q hq (Nat.compare_eq_eq.mp h).symm) hs
  refine ⟨tree', ?_, treeInsert_perm he, hs'⟩
  rw [addNommuRegion, if_neg (fun h => hne r h rfl), he]

private theorem addVmaToMm_ok (v : Vma) (hs : mm.mmRb.Pairwise fun v w => v.vmStart < w.vmStart)
    (hne : ∀ w ∈ mm.mmRb, w.vmStart ≠ v.vmStart) : ∃ mm', addVmaToMm mm v = some mm' ∧
      mm'.mmRb.Perm (v :: mm.mmRb) ∧ mm'.mmRb.Pairwise fun v w => v.vmStart < w.vmStart := by
  have hcmp : ∀ w ∈ mm.mmRb, vmaCmp v w = compare v.vmStart w.vmStart := by
    intro w hw
    have := hne w hw
    rcases Nat.lt_trichotomy v.vmStart w.vmStart with h | h | h
    · rw [vmaCmp, Nat.compare_eq_lt.mpr h]
      rfl
    · omega
    · rw [vmaCmp, Nat.compare_eq_gt.mpr h]
      rfl
  obtain ⟨rb, he, hs'⟩ := @treeInsert_sorted _ vmaCmp v (fun v w => v.vmStart < w.vmStart)
    Nat.lt_trans mm.mmRb (fun w hw h => Nat.compare_eq_lt.mp (hcmp w hw ▸ h))
    (fun w hw h => Nat.compare_eq_gt.mp (hcmp w hw ▸ h))
    (fun w hw h => hne w hw (Nat.compare_eq_eq.mp (hcmp w hw ▸ h)).symm) hs
  exact ⟨_, by rw [addVmaToMm, he]; rfl, treeInsert_perm he, hs'⟩

/-- No region of another piece starts inside the region of a piece. -/
private theorem Piece.Apart.start_ne {p q : Piece} {n : Nat} (h : p.Apart q) (hq : q.Ok n)
    {a : Nat} (ha : p.region.vmStart ≤ a) (ha' : a < p.region.vmTop) : q.region.vmStart ≠ a := by
  have := hq.start
  have := hq.nonempty
  have := hq.inside
  have := hq.slack
  have := h.1
  omega

/-- With the first piece taken out, its region can be added again with any start inside it. -/
private theorem Owns.addRegion (h : Owns s (⟨m, v, r⟩ :: l)) (r' : VmRegion)
    (ha : r.vmStart ≤ r'.vmStart) (ha' : r'.vmStart < r.vmTop) :
    ∃ tree, addNommuRegion (deleteNommuRegion s.regionTree r) r' = some tree ∧
      tree.Perm (r' :: l.map Piece.region) ∧
      tree.Pairwise fun r q => r.vmStart < q.vmStart := by
  have hperm : (s.regionTree.erase r).Perm (l.map Piece.region) := by
    have := h.tree.erase r
    rwa [List.map_cons, List.erase_cons_head] at this
  obtain ⟨tree, he, hp, hs⟩ := addNommuRegion_ok r' (h.treeSorted.sublist (List.erase_sublist))
    (fun q hq => by
      obtain ⟨p, hp, rfl⟩ := List.mem_map.mp (hperm.mem_iff.mp hq)
      exact ((List.pairwise_cons.mp h.apart).1 p hp).start_ne
        (h.ok p (List.mem_cons_of_mem _ hp)) ha ha')
  exact ⟨tree, he, hp.trans (hperm.cons r'), hs⟩

/-- Likewise for its VMA. -/
private theorem Owns.addVma (h : Owns s (⟨m, v, r⟩ :: l)) (v' : Vma)
    (ha : r.vmStart ≤ v'.vmStart) (ha' : v'.vmStart < r.vmTop) :
    ∃ mm, addVmaToMm (deleteVmaFromMm (s.mms m) v) v' = some mm ∧
      mm.mmRb.Perm (v' :: vmasOf l m) ∧ mm.mmRb.Pairwise fun v w => v.vmStart < w.vmStart := by
  have hperm : ((s.mms m).mmRb.erase v).Perm (vmasOf l m) := by
    have := (h.rb m).erase v
    rwa [vmasOf_cons_self ⟨m, v, r⟩ l, List.erase_cons_head] at this
  obtain ⟨mm, he, hp, hs⟩ := @addVmaToMm_ok (deleteVmaFromMm (s.mms m) v) v'
    ((h.rbSorted m).sublist (List.erase_sublist)) (fun w hw => by
      obtain ⟨p, hp, -, rfl⟩ := mem_vmasOf.mp (hperm.mem_iff.mp hw)
      have hok := h.ok p (List.mem_cons_of_mem _ hp)
      rw [hok.start]
      exact ((List.pairwise_cons.mp h.apart).1 p hp).start_ne hok ha ha')
  exact ⟨mm, he, hp.trans (hperm.cons v'), hs⟩

/-! ### Cutting a piece -/

theorem vmasOf_append_self {new : List Piece} (h : ∀ p ∈ new, p.mm = m) (l : List Piece) :
    vmasOf (new ++ l) m = new.map Piece.vma ++ vmasOf l m := by
  rw [vmasOf, List.filter_append, List.map_append,
    List.filter_eq_self.mpr fun p hp => decide_eq_true (h p hp)]
  rfl

theorem vmasOf_append_of_ne {new : List Piece} (h : ∀ p ∈ new, p.mm = m) {k : Nat} (hk : k ≠ m)
    (l : List Piece) : vmasOf (new ++ l) k = vmasOf l k := by
  rw [vmasOf, List.filter_append, List.filter_eq_nil_iff.mpr fun p hp => ?_, List.nil_append]
  · rfl
  · simp [h p hp, Ne.symm hk]

/-- The first piece is replaced by pieces of it; pages of it that are in none of these may have
been given back. -/
theorem Owns.recut (h : Owns s (⟨m, v, r⟩ :: l)) {n : Nat}
    {c : Nat → Option Nat} {a : Int} (new : List Piece) (hm : ∀ p ∈ new, p.mm = m)
    (htree : tree.Perm (new.map Piece.region ++ l.map Piece.region))
    (htreeSorted : tree.Pairwise fun r q => r.vmStart < q.vmStart)
    (hrb : mm.mmRb.Perm (new.map Piece.vma ++ vmasOf l m))
    (hrbSorted : mm.mmRb.Pairwise fun v w => v.vmStart < w.vmStart) (hn : s.nextId ≤ n)
    (hok : ∀ p ∈ new, p.Ok n) (hapart : new.Pairwise Piece.Apart)
    (hin : ∀ p ∈ new, r.vmStart ≤ p.region.vmStart ∧ p.region.vmTop ≤ r.vmTop ∧
      (p.region.id = r.id ∨ s.nextId ≤ p.region.id))
    (hkeep : ∀ p ∈ new, ∀ k, p.Has k → c k = s.pageCount k)
    (hother : ∀ k, k * 4096 < r.vmStart ∨ r.vmTop ≤ k * 4096 → c k = s.pageCount k)
    (ha : a + r.pages = s.mmapPagesAllocated + ((new.map fun p => p.region.pages).sum : Nat)) :
    Owns { s with
      mms := Function.update s.mms m mm
      regionTree := tree
      nextId := n
      pageCount := c
      mmapPagesAllocated := a } (new ++ l) := by
  obtain ⟨hap, hl⟩ := List.pairwise_cons.mp h.apart
  refine ⟨by rw [List.map_append]; exact htree, htreeSorted, fun k => ?_, fun k => ?_,
    fun p hp => ?_, List.pairwise_append.mpr ⟨hapart, hl, fun p hp q hq => ?_⟩, fun p hp k hk => ?_,
    ?_, h.good⟩
  · by_cases hk : k = m
    · subst hk
      dsimp only
      rw [Function.update_self, vmasOf_append_self hm]
      exact hrb
    · dsimp only
      rw [Function.update_of_ne hk, vmasOf_append_of_ne hm hk]
      have := h.rb k
      rwa [vmasOf_cons_of_ne hk] at this
  · by_cases hk : k = m
    · subst hk
      dsimp only
      rw [Function.update_self]
      exact hrbSorted
    · dsimp only
      rw [Function.update_of_ne hk]
      exact h.rbSorted k
  · rcases List.mem_append.mp hp with hp | hp
    · exact hok p hp
    · have hold := h.ok p (List.mem_cons_of_mem _ hp)
      exact { hold with fresh := Nat.lt_of_lt_of_le hold.fresh hn }
  · obtain ⟨h1, h2, h3⟩ := hin p hp
    obtain ⟨h4, h5⟩ := hap q hq
    have := (h.ok q (List.mem_cons_of_mem _ hq)).fresh
    dsimp only at h4 h5
    exact ⟨by omega, by omega⟩
  · dsimp only
    rcases List.mem_append.mp hp with hp | hp
    · obtain ⟨h1, h2, -⟩ := hin p hp
      rw [hkeep p hp k hk]
      exact h.held _ List.mem_cons_self k ⟨Nat.le_trans h1 hk.1, Nat.lt_of_lt_of_le hk.2 h2⟩
    · have hd := (hap p hp).1
      have hkp := hk
      simp only [Piece.Has] at hkp hd
      rw [hother k (by omega)]
      exact h.held p (List.mem_cons_of_mem _ hp) k hk
  · have htotal := h.total
    simp only [List.map_cons, List.sum_cons, List.map_append, List.sum_append] at htotal ⊢
    push_cast at htotal ha ⊢
    omega

/-- What the first piece says about its addresses. -/
private theorem Owns.bounds (h : Owns s (⟨m, v, r⟩ :: l)) : v.vmStart = r.vmStart ∧
    r.vmStart < v.vmEnd ∧ v.vmEnd ≤ r.vmEnd ∧ r.vmEnd ≤ r.vmTop ∧ r.vmTop < 4294967296 ∧
      r.vmStart % 4096 = 0 ∧ r.vmTop % 4096 = 0 := by
  have hok := h.ok _ List.mem_cons_self
  exact ⟨hok.start, hok.start ▸ hok.nonempty, hok.inside, hok.slack, hok.bound, hok.startAligned,
    hok.topAligned⟩

/-- The first piece is replaced by pieces of it and the rest of its pages, a range, is given
back. -/
theorem Owns.recutFree (h : Owns s (⟨m, v, r⟩ :: l)) (new : List Piece) (hm : ∀ p ∈ new, p.mm = m)
    (htree : tree.Perm (new.map Piece.region ++ l.map Piece.region))
    (htreeSorted : tree.Pairwise fun r q => r.vmStart < q.vmStart)
    (hrb : mm.mmRb.Perm (new.map Piece.vma ++ vmasOf l m))
    (hrbSorted : mm.mmRb.Pairwise fun v w => v.vmStart < w.vmStart)
    (hok : ∀ p ∈ new, p.Ok s.nextId) (hapart : new.Pairwise Piece.Apart)
    (hin : ∀ p ∈ new, r.vmStart ≤ p.region.vmStart ∧ p.region.vmTop ≤ r.vmTop ∧
      (p.region.id = r.id ∨ s.nextId ≤ p.region.id))
    {start stop : Nat} (hstart : start % 4096 = 0) (hstop : stop % 4096 = 0) (hle : start ≤ stop)
    (hfree : r.vmStart ≤ start ∧ stop ≤ r.vmTop)
    (hout : ∀ p ∈ new, p.region.vmTop ≤ start ∨ stop ≤ p.region.vmStart)
    (hpages : r.pages = (stop - start) / 4096 + (new.map fun p => p.region.pages).sum) :
    Owns (freePageSeries { s.setMm m mm with regionTree := tree } start stop) (new ++ l) := by
  have hheld : ∀ k, start ≤ k * 4096 → k * 4096 < stop → s.pageCount k = some 1 := fun k h1 h2 =>
    h.held _ List.mem_cons_self k ⟨Nat.le_trans hfree.1 h1, Nat.lt_of_lt_of_le h2 hfree.2⟩
  rw [freePageSeries_held (s := { s.setMm m mm with regionTree := tree }) hstart hstop hle hheld]
  refine h.recut new hm htree htreeSorted hrb hrbSorted (Nat.le_refl _) hok hapart hin
    (fun p hp k hk => if_neg ?_) (fun k hk => if_neg (by omega)) ?_
  · have := hout p hp
    simp only [Piece.Has] at hk
    omega
  · dsimp only [Nommu.setMm]
    rw [hpages, Int.natCast_add]
    omega

/-- Dropping a VMA drops its piece. -/
theorem Owns.erase (h : Owns s (⟨m, v, r⟩ :: l)) :
    ∃ s', eraseWholeVma s m v = some s' ∧ Owns s' l := by
  have hok := h.ok _ List.mem_cons_self
  obtain ⟨-, h1, h2, h3, -, hstart, htop⟩ := h.bounds
  have hput : putNommuRegion (s.setMm m (deleteVmaFromMm (s.mms m) v)) r = freePageSeries
      { s.setMm m (deleteVmaFromMm (s.mms m) v) with
        regionTree := deleteNommuRegion s.regionTree r } r.vmStart r.vmTop := by
    have hu : r.vmUsage - 1 = 0 := by
      rw [hok.usage]
      rfl
    have hcopy : r.mappedCopy = true := hok.copy
    have hlt : r.vmStart < r.vmTop := by omega
    simp only [putNommuRegion, hu, hcopy, hlt, ↓reduceIte]
    rfl
  refine ⟨_, by rw [eraseWholeVma, h.regionOf]; rfl, ?_⟩
  rw [hput]
  refine h.recutFree [] (by simp) ?_ (h.treeSorted.sublist List.erase_sublist) ?_
    ((h.rbSorted m).sublist List.erase_sublist) (by simp) List.Pairwise.nil (by simp) hstart htop
    (by omega) ⟨Nat.le_refl _, Nat.le_refl _⟩ (by simp) rfl
  · have := h.tree.erase r
    rwa [List.map_cons, List.erase_cons_head] at this
  · have := (h.rb m).erase v
    rwa [vmasOf_cons_self ⟨m, v, r⟩ l, List.erase_cons_head] at this

/-- Cutting off the end of a VMA. -/
theorem Owns.shrinkTail (h : Owns s (⟨m, v, r⟩ :: l)) {start : Nat} (stop : Nat)
    (hal : start % 4096 = 0) (hlt : v.vmStart < start) (hin : start < v.vmEnd) :
    ∃ s', shrinkVma s m v start stop = some s' ∧
      Owns s' (⟨m, { v with vmEnd := start }, { r with vmTop := start, vmEnd := start }⟩ :: l) := by
  have hok := h.ok _ List.mem_cons_self
  obtain ⟨h0, h1, h2, h3, h4, hstart, htop⟩ := h.bounds
  obtain ⟨mm, hmm, hmmp, hmms⟩ := h.addVma { v with vmEnd := start } (Nat.le_of_eq h0.symm)
    (by dsimp only; omega)
  obtain ⟨tree, ht, htp, hts⟩ := h.addRegion { r with vmTop := start, vmEnd := start }
    (Nat.le_refl _) (by dsimp only; omega)
  refine ⟨freePageSeries { s.setMm m mm with regionTree := tree } start r.vmTop, ?_, ?_⟩
  · have hu : ¬ r.vmUsage ≠ 1 := not_not.mpr hok.usage
    simp only [shrinkVma, if_pos hlt, hmm, h.regionOf, if_neg hu, if_pos (h0 ▸ hlt), ht,
      Option.bind_eq_bind, Option.bind_some]
  · refine h.recutFree [_] ?_ htp hts hmmp hmms ?_ (List.pairwise_singleton _ _) ?_ hal htop
      (by omega) ⟨by omega, Nat.le_refl _⟩ ?_ ?_
    · simp
    · simp only [List.mem_singleton, forall_eq]
      exact ⟨h0, hlt, Nat.le_refl _, Nat.le_refl _, by dsimp only; omega, hstart, hal, hok.anon,
        hok.link, hok.fresh, hok.usage, hok.copy⟩
    · simp only [List.mem_singleton, forall_eq, true_or, and_true]
      omega
    · simp
    · simp only [VmRegion.pages, List.map_cons, List.map_nil, List.sum_cons, List.sum_nil]
      omega

/-- Cutting off the beginning of a VMA. -/
theorem Owns.shrinkHead (h : Owns s (⟨m, v, r⟩ :: l)) {stop : Nat} (hal : stop % 4096 = 0)
    (hle : v.vmStart ≤ stop) (hin : stop < v.vmEnd) :
    ∃ s', shrinkVma s m v v.vmStart stop = some s' ∧
      Owns s' (⟨m, { v with vmStart := stop }, { r with vmStart := stop }⟩ :: l) := by
  have hok := h.ok _ List.mem_cons_self
  obtain ⟨h0, h1, h2, h3, h4, hstart, htop⟩ := h.bounds
  obtain ⟨mm, hmm, hmmp, hmms⟩ := h.addVma { v with vmStart := stop } (by dsimp only; omega)
    (by dsimp only; omega)
  obtain ⟨tree, ht, htp, hts⟩ := h.addRegion { r with vmStart := stop } (by dsimp only; omega)
    (by dsimp only; omega)
  refine ⟨freePageSeries { s.setMm m mm with regionTree := tree } v.vmStart stop, ?_, ?_⟩
  · have hu : ¬ r.vmUsage ≠ 1 := not_not.mpr hok.usage
    have hr : ¬ r.vmStart < v.vmStart := by omega
    simp only [shrinkVma, Nat.lt_irrefl, ↓reduceIte, hmm, h.regionOf, if_neg hu, if_neg hr, ht,
      Option.bind_eq_bind, Option.bind_some]
  · refine h.recutFree [_] ?_ htp hts hmmp hmms ?_ (List.pairwise_singleton _ _) ?_
      (by rw [h0]; exact hstart) hal hle ⟨by omega, by omega⟩ ?_ ?_
    · simp
    · simp only [List.mem_singleton, forall_eq]
      exact ⟨rfl, hin, h2, h3, h4, hal, htop, hok.anon, hok.link, hok.fresh, hok.usage, hok.copy⟩
    · simp only [List.mem_singleton, forall_eq, true_or, and_true, Nat.le_refl]
      omega
    · simp
    · simp only [VmRegion.pages, List.map_cons, List.map_nil, List.sum_cons, List.sum_nil]
      omega

/-- Splitting a VMA: the part above keeps the structures, the part below gets new ones. -/
theorem Owns.split (h : Owns s (⟨m, v, r⟩ :: l)) {addr : Nat} (hal : addr % 4096 = 0)
    (hlt : v.vmStart < addr) (hin : addr < v.vmEnd) {maxMapCount : Int}
    (hroom : (s.mms m).mapCount < maxMapCount) :
    ∃ s' pgoff, splitVma s m v addr true maxMapCount true =
        some (0, s', { v with vmStart := addr, vmPgoff := pgoff }) ∧
      Owns s' (⟨m, { v with vmStart := addr, vmPgoff := pgoff },
          { r with vmStart := addr, vmPgoff := pgoff }⟩ ::
        ⟨m, { v with id := s.nextId, vmRegion := s.nextId, vmEnd := addr },
          { r with id := s.nextId, vmTop := addr, vmEnd := addr }⟩ :: l) := by
  have hok := h.ok _ List.mem_cons_self
  obtain ⟨h0, h1, h2, h3, h4, hstart, htop⟩ := h.bounds
  have hap := (List.pairwise_cons.mp h.apart).1
  generalize hpg : wadd v.vmPgoff (wsub addr v.vmStart / pageSize) = pgoff
  obtain ⟨tree, ht, htp, hts⟩ := h.addRegion { r with vmStart := addr, vmPgoff := pgoff }
    (by dsimp only; omega) (by dsimp only; omega)
  obtain ⟨tree', ht', htp', hts'⟩ := addNommuRegion_ok
    { r with id := s.nextId, vmTop := addr, vmEnd := addr } hts (by
      intro q hq
      rcases List.mem_cons.mp (htp.mem_iff.mp hq) with rfl | hq
      · dsimp only
        omega
      · obtain ⟨p, hp, rfl⟩ := List.mem_map.mp hq
        exact (hap p hp).start_ne (h.ok p (List.mem_cons_of_mem _ hp)) (Nat.le_refl _)
          (by dsimp only; omega))
  obtain ⟨mm, hmm, hmmp, hmms⟩ := h.addVma { v with vmStart := addr, vmPgoff := pgoff }
    (by dsimp only; omega) (by dsimp only; omega)
  obtain ⟨mm', hmm', hmmp', hmms'⟩ := addVmaToMm_ok
    { v with id := s.nextId, vmRegion := s.nextId, vmEnd := addr } hmms (by
      intro w hw
      rcases List.mem_cons.mp (hmmp.mem_iff.mp hw) with rfl | hw
      · dsimp only
        omega
      · obtain ⟨p, hp, -, rfl⟩ := mem_vmasOf.mp hw
        have hpk := h.ok p (List.mem_cons_of_mem _ hp)
        rw [hpk.start]
        exact (hap p hp).start_ne hpk (Nat.le_of_eq h0.symm) (by dsimp only; omega))
  refine ⟨{ s.setMm m mm' with regionTree := tree', nextId := s.nextId + 1 }, pgoff, ?_, ?_⟩
  · have hf : ¬ v.vmFile = true := ne_true_of_eq_false hok.anon
    have hc : ¬ maxMapCount ≤ (s.mms m).mapCount := Int.not_le.mpr hroom
    simp only [splitVma, if_neg hf, if_neg hc, h.regionOf, hpg, ↓reduceIte, ht, ht', hmm, hmm',
      Option.bind_eq_bind, Option.bind_some, Bool.true_eq_false]
  · refine h.recut [_, _] ?_ (htp'.trans ((htp.cons _).trans (.swap _ _ _))) hts'
      (hmmp'.trans ((hmmp.cons _).trans (.swap _ _ _))) hmms' (Nat.le_succ _) ?_ ?_ ?_
      (fun _ _ _ _ => rfl) (fun _ _ => rfl) ?_
    · simp
    · simp only [List.mem_cons, List.not_mem_nil, or_false, forall_eq_or_imp, forall_eq]
      exact ⟨⟨rfl, hin, h2, h3, h4, hal, htop, hok.anon, hok.link, Nat.lt_succ_of_lt hok.fresh,
          hok.usage, hok.copy⟩,
        ⟨h0, hlt, Nat.le_refl _, Nat.le_refl _, by dsimp only; omega, hstart, hal, hok.anon, rfl,
          Nat.lt_succ_self _, hok.usage, hok.copy⟩⟩
    · have := hok.fresh
      dsimp only at this
      refine List.pairwise_pair.mpr ⟨.inr (Nat.le_refl _), ?_⟩
      dsimp only
      omega
    · simp only [List.mem_cons, List.not_mem_nil, or_false, forall_eq_or_imp, forall_eq]
      exact ⟨⟨by omega, Nat.le_refl _, .inl trivial⟩,
        ⟨Nat.le_refl _, by omega, .inr (Nat.le_refl _)⟩⟩
    · simp only [VmRegion.pages, List.map_cons, List.map_nil, List.sum_cons, List.sum_nil]
      dsimp only [Nommu.setMm]
      omega

/-! ### The calls -/

/-- A guarded `do_munmap` returns and keeps the pieces in order. -/
theorem Owns.munmap (h : Owns s l) {start len : Nat} {maxMapCount : Int} {kmem : Bool}
    (ok : MunmapOk s (.munmap m start len maxMapCount kmem)) :
    ∃ ret s' l', doMunmap s m start len maxMapCount kmem = some (ret, s') ∧ Owns s' l' := by
  have hcase := doMunmap_case s m start len maxMapCount kmem
  have hwrap : start + len < 4294967296 → wadd start len = start + len := wadd_of_lt
  simp only [MunmapOk, pageSize] at ok
  generalize wadd start len = stop at hcase hwrap ok
  generalize doMunmap s m start len maxMapCount kmem = res at hcase
  cases hcase with
  | refused ret s' _ hs =>
    rcases hs with rfl | ⟨v, rfl⟩
    · exact ⟨_, _, _, rfl, h⟩
    · exact ⟨_, _, _, rfl, h.cache m v⟩
  | file v w hv hf =>
    obtain ⟨r, l', hl⟩ := h.front (findVma_mem hv).1
    have := (hl.ok _ List.mem_cons_self).anon
    rw [hf] at this
    cases this
  | whole v hv =>
    obtain ⟨r, l', hl⟩ := (h.cache m v).front (v := v) (m := m) (by
      rw [s.cache_mmRb]
      exact (findVma_mem hv).1)
    obtain ⟨s', hs', ho⟩ := hl.erase
    exact ⟨_, _, _, by rw [hs']; rfl, ho⟩
  | shrink v hv hf hle hal hcut =>
    obtain ⟨hmem, hin⟩ := findVma_mem hv
    obtain ⟨r, l', hl⟩ := (h.cache m v).front (v := v) (m := m) (by rw [s.cache_mmRb]; exact hmem)
    rcases hcut with ⟨he, hlt⟩ | ⟨hlt, rfl, hal'⟩
    · obtain ⟨s', hs', ho⟩ := hl.shrinkTail stop hal hlt hin.2
      exact ⟨_, _, _, by rw [hs']; rfl, ho⟩
    · have hnw : v.vmStart ≤ stop := by
        rcases ok with ok | ok | ok | ok
        · rw [hwrap ok]
          exact Nat.le_add_right _ _
        · exact absurd hal ok
        · exact absurd hal' ok
        · exact absurd rfl (ok v hv).1
      obtain ⟨s', hs', ho⟩ := hl.shrinkHead hal' hnw hlt
      exact ⟨_, _, _, by rw [hs']; rfl, ho⟩
  | hole v hv hf hlt hal hal' hs hroom hk =>
    obtain ⟨hmem, hin⟩ := findVma_mem hv
    obtain ⟨r, l', hl⟩ := (h.cache m v).front (v := v) (m := m) (by rw [s.cache_mmRb]; exact hmem)
    have hnw : start ≤ stop := by
      rcases ok with ok | ok | ok | ok
      · rw [hwrap ok]
        exact Nat.le_add_right _ _
      · exact absurd hal ok
      · exact absurd hal' ok
      · exact absurd ⟨hroom, hk⟩ (ok v hv).2
    have hroom' : ((s.cache m v).mms m).mapCount < maxMapCount := by
      simpa [Nommu.cache, Nommu.setMm] using hroom
    obtain ⟨t, pgoff, ht, ho⟩ := hl.split hal hs hin.2 hroom'
    obtain ⟨s', hs', ho'⟩ := ho.shrinkHead hal' hnw hlt
    subst hk
    refine ⟨0, s', _, ?_, ho'⟩
    rw [ht, Option.bind_some, if_neg (Int.lt_irrefl 0)]
    dsimp only at hs' ⊢
    rw [hs']
    rfl

/-- `exit_mmap` returns and drops the pieces of the process. -/
theorem Owns.exit (h : Owns s l) (m : Nat) : ∃ s' l', exitMmap s m = some s' ∧ Owns s' l' := by
  suffices hloop : ∀ (vs : List Vma) (s : Nommu) (l : List Piece), Owns s l →
      vs.Perm (vmasOf l m) → ∃ s' l', exitMmapLoop m vs s = some s' ∧ Owns s' l' from
    hloop _ s l h (h.rb m)
  intro vs
  induction vs with
  | nil => exact fun s l h _ => ⟨s, l, rfl, h⟩
  | cons v t ih =>
    intro s l h hp
    obtain ⟨r, l', hl⟩ := h.front ((h.rb m).mem_iff.mpr (hp.mem_iff.mp List.mem_cons_self))
    obtain ⟨s', hs', ho⟩ := hl.erase
    have ht : t.Perm (vmasOf l' m) := by
      have := hp.trans ((h.rb m).symm.trans (hl.rb m))
      rw [vmasOf_cons_self ⟨m, v, r⟩ l'] at this
      exact this.cons_inv
    obtain ⟨s'', l'', he, ho'⟩ := ih s' l' ho ht
    exact ⟨s'', l'', by rw [exitMmapLoop, hs', Option.bind_some, he], ho'⟩

private theorem replace_perm (v' : Vma) (hv : v ∈ rb) :
    (rb.replace v v').Perm (v' :: rb.erase v) := by
  induction rb with
  | nil => cases hv
  | cons x t ih =>
    by_cases hx : x = v
    · subst hx
      rw [List.replace_cons_self, List.erase_cons_head]
    · have hxv : (v == x) = false := by simpa using Ne.symm hx
      have hvx : (x == v) = false := by simpa using hx
      rw [List.replace_cons, hxv, List.erase_cons, hvx]
      have ht := ih ((List.mem_cons.mp hv).resolve_left fun h => hx h.symm)
      exact (ht.cons x).trans (.swap v' x _)

private theorem replace_starts {v' : Vma} (h : v'.vmStart = v.vmStart) :
    (rb.replace v v').map Vma.vmStart = rb.map Vma.vmStart := by
  induction rb with
  | nil => rfl
  | cons x t ih =>
    by_cases hx : x = v
    · subst hx
      rw [List.replace_cons_self, List.map_cons, List.map_cons, h]
    · have hxv : (v == x) = false := by simpa using Ne.symm hx
      rw [List.replace_cons, hxv]
      simp only [List.map_cons, ih]

private theorem findVmaExactWalk_mem {addr stop : Nat}
    (h : findVmaExactWalk addr stop rb = some v) : v ∈ rb := by
  induction rb with
  | nil => cases h
  | cons x t ih =>
    simp only [findVmaExactWalk] at h
    split at h
    · exact List.mem_cons_of_mem _ (ih h)
    · split at h
      · cases h
      · split at h
        · cases h
          exact List.mem_cons_self
        · exact List.mem_cons_of_mem _ (ih h)

private theorem findVmaExact_mem {addr len : Nat}
    (h : findVmaExact mm addr len = some v) : v ∈ mm.mmRb := by
  unfold findVmaExact at h
  split at h
  · next hc =>
    cases h
    exact MmStruct.mem_of_cached (Option.filter_eq_some_iff.mp hc).1
  · exact findVmaExactWalk_mem h

/-- Moving the end of a VMA inside its region. -/
theorem Owns.resize (h : Owns s (⟨m, v, r⟩ :: l)) {len : Nat} (h0 : 0 < len)
    (hle : v.vmStart + len ≤ r.vmEnd) :
    Owns (s.setMm m { s.mms m with
        mmRb := (s.mms m).mmRb.replace v { v with vmEnd := v.vmStart + len } })
      (⟨m, { v with vmEnd := v.vmStart + len }, r⟩ :: l) := by
  have hok := h.ok _ List.mem_cons_self
  have hperm : ((s.mms m).mmRb.erase v).Perm (vmasOf l m) := by
    have := (h.rb m).erase v
    rwa [vmasOf_cons_self ⟨m, v, r⟩ l, List.erase_cons_head] at this
  have hv : v ∈ (s.mms m).mmRb := (h.rb m).mem_iff.mpr (by
    rw [vmasOf_cons_self ⟨m, v, r⟩ l]
    exact List.mem_cons_self)
  refine h.recut [⟨m, { v with vmEnd := v.vmStart + len }, r⟩] ?_ h.tree h.treeSorted
    ((replace_perm _ hv).trans (hperm.cons _)) ?_ (Nat.le_refl _) ?_ (List.pairwise_singleton _ _)
    ?_ (fun _ _ _ _ => rfl) (fun _ _ => rfl) ?_
  · simp
  · have hstarts := @replace_starts v (s.mms m).mmRb { v with vmEnd := v.vmStart + len } rfl
    have hsorted := (List.pairwise_map (f := Vma.vmStart) (R := (· < ·))).mpr (h.rbSorted m)
    rw [← hstarts] at hsorted
    exact List.pairwise_map.mp hsorted
  · simp only [List.mem_singleton, forall_eq]
    exact { hok with start := hok.start, nonempty := Nat.lt_add_of_pos_right h0, inside := hle }
  · simp
  · simp

/-- `do_mremap` returns and keeps the pieces in order. -/
theorem Owns.mremap (h : Owns s l) (addr oldLen newLen : Nat) (fixed : Bool) (newAddr : Nat) :
    ∃ ret s' l', doMremap s m addr oldLen newLen fixed newAddr = some (ret, s') ∧
      Owns s' l' := by
  unfold doMremap
  split
  · exact ⟨_, _, _, rfl, h⟩
  next hlen =>
  split
  · exact ⟨_, _, _, rfl, h⟩
  split
  · exact ⟨_, _, _, rfl, h⟩
  split
  · exact ⟨_, _, _, rfl, h⟩
  next v hv =>
  dsimp only
  have hc := h.cache m v
  split
  · exact ⟨_, _, _, rfl, hc⟩
  split
  · exact ⟨_, _, _, rfl, hc⟩
  obtain ⟨r, l', hl⟩ := hc.front (v := v) (m := m) (by
    rw [s.cache_mmRb]
    exact findVmaExact_mem hv)
  obtain ⟨h0, h1, h2, h3, h4, -⟩ := hl.bounds
  have hsub : wsub r.vmEnd r.vmStart = r.vmEnd - r.vmStart := wsub_of_le (by omega) (by omega)
  rw [hl.regionOf, Option.bind_eq_bind, Option.bind_some, hsub]
  split
  · exact ⟨_, _, _, rfl, hc⟩
  · next hle =>
    have hadd : wadd v.vmStart newLen = v.vmStart + newLen := wadd_of_lt (by omega)
    rw [hadd]
    exact ⟨_, _, _, rfl, hl.resize (by omega) (by omega)⟩

/-- An accepted length is not empty and its page rounding does not wrap. -/
private theorem validateMmapRequest_ok {taskSize : Nat} {req : MmapRequest}
    (hlen : req.len < 4294967296) (h : ¬ validateMmapRequest taskSize req < 0) :
    0 < req.len ∧ req.len ≤ pageAlign req.len ∧ pageAlign req.len < 4294967296 ∧
      pageAlign req.len % 4096 = 0 := by
  have hacc : 0 < req.len ∧ pageAlign req.len ≠ 0 := by
    simp only [validateMmapRequest] at h
    split at h
    · exact absurd (by decide) h
    split at h
    · exact absurd (by decide) h
    split at h
    · exact absurd (by decide) h
    next h0 =>
    split at h
    · exact absurd (by decide) h
    next hr => exact ⟨Nat.pos_of_ne_zero h0, fun he => hr (.inl he)⟩
  revert hacc
  simp only [pageAlign, align, alignDown, wadd]
  omega

/-- Pages the allocator hands out belong to no piece. -/
private theorem Owns.apart_of_free (h : Owns s l) {p q : Piece} (hq : q ∈ l) {base n : Nat}
    (hfree : ∀ k < n, s.pageCount (base + k) = none) (hstart : p.region.vmStart = base * 4096)
    (hne : p.region.vmStart < p.region.vmTop) (htop : p.region.vmTop ≤ (base + n) * 4096)
    (hid : p.region.id = s.nextId) : p.Apart q := by
  have hok := h.ok q hq
  have hlt := hok.start
  have := hok.nonempty
  have := hok.inside
  have := hok.slack
  have := hok.startAligned
  refine ⟨?_, fun he => ?_⟩
  · by_contra hover
    -- the later of the two starts is a page of both
    obtain ⟨k, hk, hkq⟩ : ∃ k < n, q.Has (base + k) := by
      by_cases hle : base * 4096 ≤ q.region.vmStart
      · exact ⟨q.region.vmStart / 4096 - base, by omega, by simp only [Piece.Has]; omega⟩
      · exact ⟨0, by omega, by simp only [Piece.Has]; omega⟩
    have hheld := h.held q hq _ hkq
    rw [hfree k hk] at hheld
    cases hheld
  · have := hok.fresh
    omega

/-- A piece on pages the allocator handed out is added. -/
private theorem Owns.add (h : Owns s l) {base n total : Nat} {c : Nat → Option Nat} {v : Vma}
    {r : VmRegion} (hfree : ∀ k < n, s.pageCount (base + k) = none)
    (hc : ∀ k, (base ≤ k → k < base + total → c k = some 1) ∧
      (k < base ∨ base + n ≤ k → c k = s.pageCount k)) (hle : total ≤ n)
    (hstart : r.vmStart = base * 4096 ∧ r.vmTop = base * 4096 + total * 4096 ∧ r.id = s.nextId)
    (hok : Piece.Ok ⟨m, v, r⟩ (s.nextId + 1)) :
    ∃ ret s' l', (do
      let tree ← addNommuRegion s.regionTree r
      let mm ← addVmaToMm (s.mms m) v
      some ((v.vmStart : Int), { Nommu.setMm { s with
        pageCount := c
        mmapPagesAllocated := s.mmapPagesAllocated + (total : Nat) } m mm with
          regionTree := tree, nextId := s.nextId + 1 })) = some (ret, s') ∧ Owns s' l' := by
  obtain ⟨h1, h2, h3⟩ := hstart
  have hlt : r.vmStart < r.vmTop := Nat.lt_of_lt_of_le
    (hok.start ▸ hok.nonempty) (Nat.le_trans hok.inside hok.slack)
  have hap : ∀ q ∈ l, Piece.Apart ⟨m, v, r⟩ q := fun q hq =>
    h.apart_of_free hq hfree h1 hlt (by dsimp only; omega) h3
  have hne : ∀ q ∈ l, q.region.vmStart ≠ r.vmStart := fun q hq =>
    (hap q hq).start_ne (h.ok q hq) (Nat.le_refl _) hlt
  obtain ⟨tree, ht, htp, hts⟩ := addNommuRegion_ok r h.treeSorted fun q hq => by
    obtain ⟨p, hp, rfl⟩ := List.mem_map.mp (h.tree.mem_iff.mp hq)
    exact hne p hp
  obtain ⟨mm, hmm, hmmp, hmms⟩ := addVmaToMm_ok v (h.rbSorted m) fun w hw => by
    obtain ⟨p, hp, -, rfl⟩ := mem_vmasOf.mp ((h.rb m).mem_iff.mp hw)
    rw [(h.ok p hp).start, hok.start]
    exact hne p hp
  rw [ht, hmm]
  refine ⟨_, _, ⟨m, v, r⟩ :: l, rfl, ?_⟩
  refine ⟨htp.trans (h.tree.cons r), hts, fun k => ?_, fun k => ?_, fun p hp => ?_,
    List.pairwise_cons.mpr ⟨hap, h.apart⟩, fun p hp k hk => ?_, ?_, h.good⟩
  · by_cases hk : k = m
    · subst hk
      dsimp only [Nommu.setMm]
      rw [Function.update_self, vmasOf_cons_self ⟨k, v, r⟩ l]
      exact hmmp.trans ((h.rb k).cons v)
    · dsimp only [Nommu.setMm]
      rw [Function.update_of_ne hk, vmasOf_cons_of_ne hk]
      exact h.rb k
  · by_cases hk : k = m
    · subst hk
      dsimp only [Nommu.setMm]
      rw [Function.update_self]
      exact hmms
    · dsimp only [Nommu.setMm]
      rw [Function.update_of_ne hk]
      exact h.rbSorted k
  · rcases List.mem_cons.mp hp with rfl | hp
    · exact hok
    · have hold := h.ok p hp
      exact { hold with fresh := Nat.lt_succ_of_lt hold.fresh }
  · rcases List.mem_cons.mp hp with rfl | hp
    · simp only [Piece.Has] at hk
      exact (hc k).1 (by omega) (by omega)
    · have hheld := h.held p hp k hk
      refine ((hc k).2 ?_).trans hheld
      by_contra hin
      have hnone := hfree (k - base) (by omega)
      rw [show base + (k - base) = k by omega, hheld] at hnone
      cases hnone
  · have htotal := h.total
    simp only [List.map_cons, List.sum_cons, VmRegion.pages, h2, h1] at htotal ⊢
    dsimp only [Nommu.setMm]
    rw [htotal, Nat.add_sub_cancel_left, Nat.mul_div_cancel _ (by decide), Int.natCast_add,
      Int.add_comm]

/-- `do_mmap_pgoff` returns and keeps the pieces in order. -/
theorem Owns.mmap (h : Owns s l) {ram : Ram} {req : MmapRequest} (kmem : Bool)
    {block : Option Nat} (trim : Int) (hlen : req.len < 4294967296)
    (hfree : BlockFree ram s (getOrder (pageAlign req.len)) block) :
    ∃ ret s' l', doMmapPgoff ram.taskSize s m req kmem block trim = some (ret, s') ∧
      Owns s' l' := by
  unfold doMmapPgoff
  split
  · exact ⟨_, _, _, rfl, h⟩
  next hval =>
  obtain ⟨h0, h1, h2, h3⟩ := validateMmapRequest_ok hlen hval
  split
  · exact ⟨_, _, _, rfl, h⟩
  split
  · exact ⟨_, _, _, rfl, h⟩
  next base =>
  obtain ⟨hram, hnone⟩ := hfree
  have hlt := ram.pages_lt
  have hpages := @mmapPages_spec s _ base (by omega) h2 h3 trim
  obtain ⟨hp0, hp1, hp2⟩ := keptPages_bounds (by omega) h2 h3 trim
  generalize keptPages (pageAlign req.len) trim = total at hpages hp0 hp1 hp2
  have hstart : wmul base pageSize = base * 4096 := Nat.mod_eq_of_lt (by rw [pageSize]; omega)
  have htotal : wmul total pageSize = total * 4096 := Nat.mod_eq_of_lt (by rw [pageSize]; omega)
  have hend : wadd (base * 4096) (pageAlign req.len) = base * 4096 + pageAlign req.len :=
    wadd_of_lt (by omega)
  have htop : wadd (base * 4096) (total * 4096) = base * 4096 + total * 4096 :=
    wadd_of_lt (by omega)
  have hvend : wadd (base * 4096) req.len = base * 4096 + req.len := wadd_of_lt (by omega)
  dsimp only
  rw [hpages, hstart, htotal, hend, htop, hvend]
  dsimp only
  exact h.add hnone (block_pages hp2) hp2 ⟨rfl, rfl, rfl⟩
    ⟨rfl, by dsimp only; omega, by dsimp only; omega,
    by dsimp only; omega, by dsimp only; omega, by dsimp only; omega, by dsimp only; omega, rfl,
    rfl, Nat.lt_succ_self _, rfl, rfl⟩

/-- Every guarded call keeps the pieces in order. -/
theorem Owns.step {ram : Ram} (h : Owns s l) {a : NommuAct} (ok : MunmapOk s a)
    (hstep : nommuStep ram s a = some s') : ∃ l', Owns s' l' := by
  cases a with
  | mmap m req kmem block trim =>
    simp only [nommuStep] at hstep
    split at hstep
    · next harg =>
      obtain ⟨ret, t, l', ht, ho⟩ := @Owns.mmap s l m h ram req kmem block trim harg.1 harg.2.2
      rw [ht] at hstep
      cases hstep
      exact ⟨l', ho⟩
    · cases hstep
  | munmap m start len maxMapCount kmem =>
    simp only [nommuStep] at hstep
    split at hstep
    · obtain ⟨ret, t, l', ht, ho⟩ := h.munmap ok
      rw [ht] at hstep
      cases hstep
      exact ⟨l', ho⟩
    · cases hstep
  | mremap m addr oldLen newLen fixed newAddr =>
    simp only [nommuStep] at hstep
    split at hstep
    · obtain ⟨ret, t, l', ht, ho⟩ := @Owns.mremap s l m h addr oldLen newLen fixed newAddr
      rw [ht] at hstep
      cases hstep
      exact ⟨l', ho⟩
    · cases hstep
  | exit m =>
    obtain ⟨t, l', ht, ho⟩ := h.exit m
    simp only [nommuStep, ht] at hstep
    cases hstep
    exact ⟨l', ho⟩

/-- Without mappings there are no pieces. -/
theorem Nommu.Empty.owns (h : s.Empty) : Owns s [] := by
  obtain ⟨hm, ht, ha, -, hb⟩ := h
  refine ⟨by rw [ht]; rfl, by rw [ht]; exact .nil, fun k => by rw [hm]; rfl,
    fun k => by rw [hm]; exact .nil, by simp, .nil, by simp, by rw [ha]; rfl, hb⟩

/-- Regions are well formed and do not overlap, every VMA lies in its region, every page behind
a region is held and none was given back twice, and the page counter is right. -/
structure Nommu.RegionsOk (s : Nommu) : Prop where
  bounds : ∀ r ∈ s.regionTree, r.vmStart < r.vmEnd ∧ r.vmEnd ≤ r.vmTop
  disjoint : s.regionTree.Pairwise fun r q => r.vmTop ≤ q.vmStart ∨ q.vmTop ≤ r.vmStart
  inside : ∀ m, ∀ v ∈ (s.mms m).mmRb, ∃ r ∈ s.regionTree, r.id = v.vmRegion ∧
    r.vmStart ≤ v.vmStart ∧ v.vmStart < v.vmEnd ∧ v.vmEnd ≤ r.vmEnd
  held : ∀ r ∈ s.regionTree, r.mappedCopy = true → ∀ k, r.vmStart ≤ k * 4096 →
    k * 4096 < r.vmTop → s.pageCount k ≠ none
  once : s.badFree = false
  total : s.mmapPagesAllocated =
    (((s.regionTree.filter VmRegion.mappedCopy).map VmRegion.pages).sum : Nat)

theorem Owns.regionsOk (h : Owns s l) : s.RegionsOk where
  bounds r hr := by
    obtain ⟨p, hp, rfl⟩ := List.mem_map.mp (h.tree.mem_iff.mp hr)
    have hok := h.ok p hp
    exact ⟨hok.start ▸ Nat.lt_of_lt_of_le hok.nonempty hok.inside, hok.slack⟩
  disjoint := by
    refine (h.tree.pairwise_iff Or.symm).mpr (List.pairwise_map.mpr (h.apart.imp ?_))
    exact fun hap => hap.1
  inside m v hv := by
    obtain ⟨p, hp, -, rfl⟩ := mem_vmasOf.mp ((h.rb m).mem_iff.mp hv)
    have hok := h.ok p hp
    exact ⟨p.region, h.tree.mem_iff.mpr (List.mem_map_of_mem hp), hok.link.symm,
      Nat.le_of_eq hok.start.symm, hok.nonempty, hok.inside⟩
  held r hr _ k h1 h2 := by
    obtain ⟨p, hp, rfl⟩ := List.mem_map.mp (h.tree.mem_iff.mp hr)
    rw [h.held p hp k ⟨h1, h2⟩]
    simp
  once := h.good
  total := by
    have hcopy : s.regionTree.filter VmRegion.mappedCopy = s.regionTree := by
      refine List.filter_eq_self.mpr fun r hr => ?_
      obtain ⟨p, hp, rfl⟩ := List.mem_map.mp (h.tree.mem_iff.mp hr)
      exact (h.ok p hp).copy
    rw [hcopy, (h.tree.map VmRegion.pages).sum_nat, List.map_map]
    exact h.total

/-- In every sequence of calls by any number of processes in which each `do_munmap` that wraps
around is refused, regions, VMAs, pages and the page counter agree after every call. -/
theorem nommu_regions {ram : Ram} {s : Nommu} (h : (nommuSystem ram).Reach MunmapOk s) :
    s.RegionsOk := by
  obtain ⟨l, hl⟩ : ∃ l, Owns s l := by
    refine @System.Reach.invariant _ _ _ _ (fun s => ∃ l, Owns s l) ?_ ?_ s h
    · exact fun _ he => ⟨[], he.owns⟩
    · exact fun _ _ _ ⟨_, ho⟩ ok hs => ho.step ok hs
  exact hl.regionsOk

/-- A board with 8 MB of memory at `0xC0000000`. -/
def discoRam : Ram := ⟨0x800000, 0xC0800, by decide⟩

/-- No mappings. -/
def emptyNommu : Nommu := ⟨fun _ => ⟨[], none, 0⟩, [], 0, fun _ => none, false, 0⟩

private theorem reach_emptyNommu (ok : Nommu → NommuAct → Prop) :
    (nommuSystem discoRam).Reach ok emptyNommu :=
  .init ⟨fun _ => rfl, rfl, rfl, fun _ => rfl, rfl⟩

/-- Three pages, trimmed from a block of four, and a hole in the middle of them. -/
theorem nommu_regions_hole : ∃ s : Nommu, s.RegionsOk ∧ s.mmapPagesAllocated = 2 ∧
    s.regionTree.map (fun r => (r.vmStart, r.vmTop)) =
      [(0xC0100000, 0xC0101000), (0xC0102000, 0xC0103000)] := by
  have hrun := System.reach_of_exec
    [.mmap 0 ⟨false, 2, 0x3000, 0, 0⟩ true (some 0xC0100) 1, .munmap 0 0xC0101000 0x1000 65536 true]
    (reach_emptyNommu MunmapOk) (by simp [MunmapOk]) rfl
  exact ⟨_, nommu_regions hrun, by decide +kernel, by decide +kernel⟩

/-- Unmapping a range that wraps around moves the start of the region down, over pages that
were never handed out. -/
theorem nommu_munmap_wraps : ∃ s, (nommuSystem discoRam).Reach System.Always s ∧
    s.mmapPagesAllocated = 1 ∧ s.regionTree.map (fun r => (r.vmStart, r.vmTop, r.pages)) =
      [(0xC00F0000, 0xC0101000, 17)] ∧ s.pageCount 0xC00F0 = none := by
  have hrun := System.reach_of_exec
    [.mmap 0 ⟨false, 2, 0x1000, 0, 0⟩ true (some 0xC0100) 1,
      .munmap 0 0xC0100000 0xFFFF0000 65536 true]
    (reach_emptyNommu System.Always) (fun _ _ _ => trivial) rfl
  exact ⟨_, hrun, by decide +kernel, by decide +kernel, by decide +kernel⟩

end LinuxStm32.Mm
