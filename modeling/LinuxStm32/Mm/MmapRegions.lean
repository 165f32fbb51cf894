import LinuxStm32.Base.RefCount
import LinuxStm32.Mm.MmapPlan

/-!
# Regions and their VMAs

Every VMA points to a region in the tree, and the uses of a region are the VMAs that point to it. A
VMA of a region that may be shared lies inside the region, with every page of the file where the
region has it; an anonymous VMA has a region of its own. Unmapping, `mm/nommu.c:1433–1640`, keeps
this, and so does the exit of a process.
-/

namespace LinuxStm32.Mm.Mmap

open Base

/-! ### What is to hold -/

/-- The VMA lies inside the region, and its first page of the file is where the region has it. -/
def Inside (r : VmRegion) (v : Vma) : Prop :=
  r.vmPgoff ≤ v.vmPgoff ∧ v.vmStart = r.vmStart + (v.vmPgoff - r.vmPgoff) * 4096 ∧
    v.vmStart < v.vmEnd ∧ v.vmEnd ≤ r.vmEnd

/-- The VMAs of regions that may be shared lie inside them, the uses of a region are its VMAs, and
there are just the regions that have some. -/
structure MapsRightBytes (s : Mem) : Prop where
  distinct : (s.regionTree.map (·.id)).Nodup
  inside : ∀ v ∈ s.vmas, ∀ r ∈ s.regionTree, v.vmRegion = r.id → r.vmFlags.mayShare = true →
    Inside r v
  usage : ∀ r ∈ s.regionTree, r.vmUsage = (s.vmas.countP (·.vmRegion = r.id) : Nat)
  alive : ∀ i, (∃ r ∈ s.regionTree, r.id = i) ↔ ∃ v ∈ s.vmas, v.vmRegion = i

/-! ### The invariant -/

/-- Regions are not empty and do not wrap; one that is not shared has one use. -/
structure RegionSound (r : VmRegion) : Prop where
  start_lt : r.vmStart < r.vmEnd
  end_le : r.vmEnd ≤ r.vmTop
  end_lt : r.vmEnd < 4294967296
  size_lt : r.vmFlags.mayShare = true → r.vmEnd - r.vmStart + 4095 < 4294967296
  pages_lt : r.vmFlags.mayShare = true →
    r.vmPgoff + (r.vmEnd - r.vmStart + 4095) / 4096 < 4294967296
  single : r.vmFlags.mayShare = false → r.vmUsage = 1

/-- How a VMA lies in its region. -/
structure VmaFits (r : VmRegion) (v : Vma) : Prop where
  inside : r.vmFlags.mayShare = true → Inside r v
  file : r.vmFlags.mayShare = true → v.vmFile.isSome
  whole : r.vmFlags.mayShare = false → v.vmStart = r.vmStart ∧ v.vmEnd ≤ r.vmEnd

theorem RegionSound.anonymous {r : VmRegion} (hshare : r.vmFlags.mayShare = false)
    (hone : r.vmUsage = 1) (hstart : r.vmStart < r.vmEnd) (htop : r.vmEnd ≤ r.vmTop)
    (hlt : r.vmEnd < 4294967296) : RegionSound r where
  start_lt := hstart
  end_le := htop
  end_lt := hlt
  size_lt hyes := absurd hyes (by simp [hshare])
  pages_lt hyes := absurd hyes (by simp [hshare])
  single _ := hone

theorem VmaFits.anonymous {r : VmRegion} {v : Vma} (hshare : r.vmFlags.mayShare = false)
    (hstart : v.vmStart = r.vmStart) (hend : v.vmEnd ≤ r.vmEnd) : VmaFits r v where
  inside hyes := absurd hyes (by simp [hshare])
  file hyes := absurd hyes (by simp [hshare])
  whole _ := ⟨hstart, hend⟩

/-- What holds in all states of the runs. -/
structure MapInv (tree : List VmRegion) (vmas : List Vma) (nextId : Nat) : Prop where
  counted : Counted VmRegion.id VmRegion.vmUsage Vma.vmRegion tree vmas
  fresh : ∀ r ∈ tree, r.id < nextId
  sound : ∀ r ∈ tree, RegionSound r
  fits : ∀ v ∈ vmas, ∀ r ∈ tree, v.vmRegion = r.id → VmaFits r v

section Invariant

variable {tree tree' : List VmRegion} {vmas vmas' : List Vma} {n n' : Nat} {r : VmRegion} {v : Vma}

theorem MapInv.nil (n : Nat) : MapInv [] [] n where
  counted := .nil
  fresh _ hr := absurd hr List.not_mem_nil
  sound _ hr := absurd hr List.not_mem_nil
  fits _ hv := absurd hv List.not_mem_nil

/-- A region is made with its first VMA. -/
theorem MapInv.add (h : MapInv tree vmas n) (hp : tree'.Perm (r :: tree))
    (hid : r.id ∉ tree.map VmRegion.id) (hn : n ≤ n') (hfresh : r.id < n') (hone : r.vmUsage = 1)
    (hsound : RegionSound r) (hregion : v.vmRegion = r.id) (hfits : VmaFits r v) :
    MapInv tree' (v :: vmas) n' where
  counted := (h.counted.add hid hone hregion).perm hp
  fresh q hq := by
    rcases List.mem_cons.mp (hp.mem_iff.mp hq) with rfl | hq
    · exact hfresh
    · exact Nat.lt_of_lt_of_le (h.fresh q hq) hn
  sound q hq := by
    rcases List.mem_cons.mp (hp.mem_iff.mp hq) with rfl | hq
    · exact hsound
    · exact h.sound q hq
  fits w hw q hq heq := by
    rcases List.mem_cons.mp hw with rfl | hw
    · rcases List.mem_cons.mp (hp.mem_iff.mp hq) with rfl | hq
      · exact hfits
      · exact absurd (List.mem_map.mpr ⟨q, hq, heq.symm.trans hregion⟩) hid
    · rcases List.mem_cons.mp (hp.mem_iff.mp hq) with rfl | hq
      · obtain ⟨o, ho, hown⟩ := h.counted.owned w hw
        exact absurd (List.mem_map.mpr ⟨o, ho, hown.symm.trans heq⟩) hid
      · exact h.fits w hw q hq heq

/-- A region goes with its last VMA. -/
theorem MapInv.dropLast (h : MapInv tree vmas n) (hr : r ∈ tree) (hv : v ∈ vmas)
    (hregion : v.vmRegion = r.id) (hone : r.vmUsage = 1) :
    MapInv (tree.erase r) (vmas.erase v) n where
  counted := h.counted.dropLast hr hv hregion hone
  fresh q hq := h.fresh q (List.mem_of_mem_erase hq)
  sound q hq := h.sound q (List.mem_of_mem_erase hq)
  fits w hw q hq heq := h.fits w (List.mem_of_mem_erase hw) q (List.mem_of_mem_erase hq) heq

/-- The region that may be shared stays in place, and its VMAs come and go. -/
theorem MapInv.update (h : MapInv tree vmas n) (hr : r ∈ tree) (hshare : r.vmFlags.mayShare = true)
    {f : VmRegion → VmRegion} (hf : SameShape r (f r)) (htop : r.vmEnd ≤ (f r).vmTop)
    (hid : ∀ q, (f q).id = q.id)
    (hcounted : Counted VmRegion.id VmRegion.vmUsage Vma.vmRegion (onRegion r.id f tree) vmas')
    (hvmas : ∀ w ∈ vmas', w ∈ vmas ∨ w.vmRegion = r.id ∧ VmaFits r w) (hn : n ≤ n') :
    MapInv (onRegion r.id f tree) vmas' n' := by
  have hcases : ∀ q ∈ onRegion r.id f tree, q = f r ∨ q ∈ tree ∧ q.id ≠ r.id := by
    intro q hq
    obtain ⟨p, hp, rfl⟩ := List.mem_map.mp hq
    split_ifs with heq
    · rw [h.counted.eq_of_name hp hr heq]
      exact .inl rfl
    · exact .inr ⟨hp, heq⟩
  have hsound := h.sound r hr
  constructor
  · exact hcounted
  · intro q hq
    rcases hcases q hq with rfl | ⟨hq, -⟩
    · rw [hid]
      exact Nat.lt_of_lt_of_le (h.fresh r hr) hn
    · exact Nat.lt_of_lt_of_le (h.fresh q hq) hn
  · intro q hq
    rcases hcases q hq with rfl | ⟨hq, -⟩
    · constructor
      · rw [hf.vmStart, hf.vmEnd]
        exact hsound.start_lt
      · rw [hf.vmEnd]
        exact htop
      · rw [hf.vmEnd]
        exact hsound.end_lt
      · rw [hf.vmStart, hf.vmEnd, hf.vmFlags]
        exact hsound.size_lt
      · rw [hf.vmStart, hf.vmEnd, hf.vmFlags, hf.vmPgoff]
        exact hsound.pages_lt
      · rw [hf.vmFlags, hshare]
        exact fun hno => (nomatch hno)
    · exact h.sound q hq
  · intro w hw q hq heq
    rcases hcases q hq with rfl | ⟨hq, hne⟩
    · have hfits : VmaFits r w := by
        rcases hvmas w hw with hw | ⟨-, hfits⟩
        · exact h.fits w hw r hr (heq.trans (hid r))
        · exact hfits
      constructor
      · unfold Inside
        rw [hf.vmStart, hf.vmEnd, hf.vmFlags, hf.vmPgoff]
        exact hfits.inside
      · rw [hf.vmFlags]
        exact hfits.file
      · rw [hf.vmStart, hf.vmEnd, hf.vmFlags]
        exact hfits.whole
    · rcases hvmas w hw with hw | ⟨hwr, -⟩
      · exact h.fits w hw q hq heq
      · exact absurd (heq.symm.trans hwr) hne

/-- With the invariant, the right bytes are mapped. -/
theorem MapInv.mapsRightBytes {s : Mem} (h : MapInv s.regionTree s.vmas s.nextId) :
    MapsRightBytes s where
  distinct := h.counted.nodup
  inside v hv r hr heq := (h.fits v hv r hr heq).inside
  usage := h.counted.uses_eq
  alive i := by
    constructor
    · rintro ⟨r, hr, rfl⟩
      have hpos := h.counted.pos r hr
      rw [h.counted.uses_eq r hr] at hpos
      obtain ⟨v, hv, heq⟩ := List.countP_pos_iff.mp (Int.natCast_pos.mp hpos)
      exact ⟨v, hv, of_decide_eq_true heq⟩
    · rintro ⟨v, hv, rfl⟩
      obtain ⟨r, hr, heq⟩ := h.counted.owned v hv
      exact ⟨r, hr, heq.symm⟩

end Invariant

/-! ### Unmapping -/

section Unmap

variable {s s' : Mem} {vma : Vma} {region : VmRegion}

theorem regionOf_eq_some (h : s.regionOf vma = some region) :
    region ∈ s.regionTree ∧ vma.vmRegion = region.id := by
  unfold Mem.regionOf at h
  have hid := List.find?_some h
  exact ⟨List.mem_of_find?_eq_some h, (of_decide_eq_true hid).symm⟩

/-- A VMA is dropped, with its region if it was the last. -/
theorem MapInv.deleteVma (h : MapInv s.regionTree s.vmas s.nextId) (hv : vma ∈ s.vmas)
    (hrun : deleteVma s vma = some s') : MapInv s'.regionTree s'.vmas s'.nextId := by
  obtain ⟨region, hof, htree, hvmas, hnext⟩ := deleteVma_fields hrun
  obtain ⟨hr, hregion⟩ := regionOf_eq_some hof
  have hsound := h.sound region hr
  rw [htree, hvmas, hnext, treeAfterPut]
  by_cases hlast : region.vmUsage - 1 = 0
  · have htop : region.vmStart < region.vmTop := Nat.lt_of_lt_of_le hsound.start_lt hsound.end_le
    rw [if_pos hlast, if_pos htop]
    exact h.dropLast hr hv hregion (by omega)
  · rw [if_neg hlast]
    have hshare : region.vmFlags.mayShare = true := by
      by_contra hno
      have hone := hsound.single (Bool.not_eq_true _ ▸ hno)
      omega
    apply h.update (f := fun r => { r with vmUsage := r.vmUsage - 1 }) hr hshare
      ⟨rfl, rfl, rfl, rfl, rfl⟩ hsound.end_le fun _ => rfl
    · exact h.counted.drop hr hv hregion (by omega) (fun _ => rfl) rfl
    · exact fun w hw => .inl (List.mem_of_mem_erase hw)
    · exact Nat.le_refl _

theorem MapInv.exitMmap {l : List Vma} (h : MapInv s.regionTree s.vmas s.nextId)
    (hl : l.Subperm s.vmas) (hrun : exitMmap s l = some s') :
    MapInv s'.regionTree s'.vmas s'.nextId := by
  induction l generalizing s with
  | nil =>
    cases hrun
    exact h
  | cons vma l ih =>
    obtain ⟨t, ht, hrest⟩ := Option.bind_eq_some_iff.mp hrun
    have hv : vma ∈ s.vmas := hl.subset List.mem_cons_self
    obtain ⟨-, -, -, hvmas, -⟩ := deleteVma_fields ht
    apply ih (h.deleteVma hv ht) _ hrest
    rw [hvmas]
    have herase := hl.erase vma
    rwa [List.erase_cons_head] at herase

/-- The region of an anonymous VMA is its own. -/
theorem MapInv.anonymous (h : MapInv s.regionTree s.vmas s.nextId) (hv : vma ∈ s.vmas)
    (hfile : vma.vmFile = none) (hr : region ∈ s.regionTree) (hregion : vma.vmRegion = region.id) :
    region.vmFlags.mayShare = false ∧ region.vmUsage = 1 ∧ vma.vmStart = region.vmStart ∧
      vma.vmEnd ≤ region.vmEnd := by
  have hfits := h.fits vma hv region hr hregion
  have hshare : region.vmFlags.mayShare = false := by
    by_contra hyes
    have hsome := hfits.file (Bool.not_eq_false _ ▸ hyes)
    rw [hfile] at hsome
    cases hsome
  exact ⟨hshare, (h.sound region hr).single hshare, hfits.whole hshare⟩

/-- An anonymous VMA and its region are cut. -/
theorem MapInv.recut (h : MapInv s.regionTree s.vmas s.nextId) (hv : vma ∈ s.vmas)
    (hfile : vma.vmFile = none) (hr : region ∈ s.regionTree) (hregion : vma.vmRegion = region.id)
    {cut : VmRegion} {vma' : Vma} {tree : List VmRegion}
    (htree : addNommuRegion (s.regionTree.erase region) cut = some tree)
    (hid : cut.id = region.id) (huses : cut.vmUsage = region.vmUsage)
    (hflags : cut.vmFlags = region.vmFlags) (hregion' : vma'.vmRegion = vma.vmRegion)
    (hpos : cut.vmStart < cut.vmEnd) (htop : cut.vmEnd ≤ cut.vmTop) (hlt : cut.vmEnd < 4294967296)
    (hstart : vma'.vmStart = cut.vmStart) (hend : vma'.vmEnd ≤ cut.vmEnd) :
    MapInv tree (vma' :: s.vmas.erase vma) s.nextId := by
  obtain ⟨hshare, hone, -⟩ := h.anonymous hv hfile hr hregion
  have hdrop := h.dropLast hr hv hregion hone
  have hshare' : cut.vmFlags.mayShare = false := by rw [hflags, hshare]
  have hnew : cut.id ∉ (s.regionTree.erase region).map VmRegion.id := by
    intro hmem
    obtain ⟨q, hq, heq⟩ := List.mem_map.mp hmem
    have hnodup : s.regionTree.Nodup := .of_map _ h.counted.nodup
    obtain rfl := h.counted.eq_of_name (List.mem_of_mem_erase hq) hr (heq.trans hid)
    exact hnodup.not_mem_erase hq
  apply hdrop.add (treeInsert_perm htree) hnew (Nat.le_refl _)
  · rw [hid]
    exact h.fresh region hr
  · rw [huses, hone]
  · exact .anonymous hshare' (huses.trans hone) hpos htop hlt
  · rw [hregion', hregion, hid]
  · exact .anonymous hshare' hstart hend

/-- One end of an anonymous VMA is cut off. -/
theorem MapInv.shrinkVma (h : MapInv s.regionTree s.vmas s.nextId) (hv : vma ∈ s.vmas)
    (hfile : vma.vmFile = none) {start stop : Nat}
    (hend : vma.vmStart < start ∧ start < vma.vmEnd ∨ start = vma.vmStart ∧ stop < vma.vmEnd)
    (hrun : shrinkVma s vma start stop = some s') :
    MapInv s'.regionTree s'.vmas s'.nextId := by
  obtain ⟨region, hof, hrun⟩ := Option.bind_eq_some_iff.mp hrun
  obtain ⟨hr, hregion⟩ := regionOf_eq_some hof
  obtain ⟨hshare, hone, hstart, hstop⟩ := h.anonymous hv hfile hr hregion
  have hlt := (h.sound region hr).end_lt
  have htop := (h.sound region hr).end_le
  dsimp only at hrun
  rw [if_neg (not_not.mpr hone)] at hrun
  obtain ⟨t, ht, hrun⟩ := Option.bind_eq_some_iff.mp hrun
  obtain ⟨tree, htree, rfl⟩ := Option.map_eq_some_iff.mp ht
  obtain rfl := Option.some.inj hrun
  dsimp only at htree ⊢
  rcases hend with ⟨hlow, hhigh⟩ | ⟨heq, hhigh⟩
  · rw [if_pos (by omega)] at htree
    rw [if_pos hlow]
    refine h.recut hv hfile hr hregion htree rfl rfl rfl rfl ?_ ?_ ?_ ?_ ?_
    · exact hstart ▸ hlow
    · exact Nat.le_refl _
    · dsimp only
      omega
    · exact hstart
    · exact Nat.le_refl _
  · rw [if_neg (by omega)] at htree
    rw [if_neg (by omega)]
    refine h.recut hv hfile hr hregion htree rfl rfl rfl rfl ?_ ?_ ?_ ?_ ?_
    · exact Nat.lt_of_lt_of_le hhigh hstop
    · exact htop
    · exact hlt
    · rfl
    · exact hstop

/-- An anonymous VMA is split, or nothing happens. -/
theorem MapInv.splitVma (h : MapInv s.regionTree s.vmas s.nextId) (hv : vma ∈ s.vmas)
    (hfile : vma.vmFile = none) {addr : Nat} {env : MunmapAnswers} {ret : Int} {upper : Vma}
    (hlow : vma.vmStart < addr) (hhigh : addr < vma.vmEnd)
    (hrun : splitVma s vma addr env = some (ret, s', upper)) :
    MapInv s'.regionTree s'.vmas s'.nextId ∧ (ret < 0 ∨ upper ∈ s'.vmas ∧ upper.vmFile = none ∧
      upper.vmStart = addr ∧ upper.vmEnd = vma.vmEnd) := by
  unfold Mmap.splitVma at hrun
  by_cases hmax : env.maxMapCount ≤ s.vmas.countP (·.mm = vma.mm)
  · rw [if_pos hmax] at hrun
    cases hrun
    exact ⟨h, .inl (by decide)⟩
  rw [if_neg hmax] at hrun
  by_cases hmem : env.mem = false
  · rw [if_pos hmem] at hrun
    cases hrun
    exact ⟨h, .inl (by decide)⟩
  rw [if_neg hmem] at hrun
  obtain ⟨region, hof, hrun⟩ := Option.bind_eq_some_iff.mp hrun
  obtain ⟨hr, hregion⟩ := regionOf_eq_some hof
  obtain ⟨hshare, hone, hstart, hstop⟩ := h.anonymous hv hfile hr hregion
  have hlt := (h.sound region hr).end_lt
  have htop := (h.sound region hr).end_le
  obtain ⟨t, ht, hrun⟩ := Option.bind_eq_some_iff.mp hrun
  obtain ⟨mid, hmid, rfl⟩ := Option.map_eq_some_iff.mp ht
  obtain ⟨tree, htree, hrun⟩ := Option.bind_eq_some_iff.mp hrun
  cases hrun
  dsimp only at htree ⊢
  -- first the upper part with the record of the old region, then the lower with a new one
  have hupper : MapInv mid ({ vma with
      vmStart := addr
      vmPgoff := wadd vma.vmPgoff (wsub addr vma.vmStart / pageSize) } :: s.vmas.erase vma)
      s.nextId :=
    h.recut hv hfile hr hregion hmid rfl rfl rfl rfl (Nat.lt_of_lt_of_le hhigh hstop) htop hlt rfl
      hstop
  have hnew : s.nextId ∉ mid.map VmRegion.id := by
    intro hmem
    obtain ⟨q, hq, heq⟩ := List.mem_map.mp hmem
    exact absurd heq (Nat.ne_of_lt (hupper.fresh q hq))
  constructor
  · apply hupper.add (treeInsert_perm htree) hnew (Nat.le_succ _) (Nat.lt_succ_self _) hone
    · refine .anonymous hshare hone ?_ ?_ ?_
      · exact hstart ▸ hlow
      · exact Nat.le_refl _
      · dsimp only
        omega
    · rfl
    · exact .anonymous hshare hstart (Nat.le_refl _)
  · exact .inr ⟨List.mem_cons_of_mem _ List.mem_cons_self, hfile, rfl, rfl⟩

/-- An unmapping keeps the invariant. -/
theorem MapInv.doMunmap (h : MapInv s.regionTree s.vmas s.nextId) {start len : Nat}
    {env : MunmapAnswers} {ret : Int}
    (hfound : ∀ v, env.found = some v → v ∈ s.vmas ∧ v.vmStart ≤ start ∧ start < v.vmEnd)
    (hlast : ∀ v, env.last = some v → v ∈ s.vmas)
    (hrun : doMunmap s start len env = some (ret, s')) :
    MapInv s'.regionTree s'.vmas s'.nextId := by
  have hdelete : ∀ v ∈ s.vmas, (Mmap.deleteVma s v).map (fun s => ((0 : Int), s)) = some (ret, s') →
      MapInv s'.regionTree s'.vmas s'.nextId := by
    intro v hv hmap
    obtain ⟨t, ht, heq⟩ := Option.map_eq_some_iff.mp hmap
    cases heq
    exact h.deleteVma hv ht
  have hsame : ∀ e : Int, some (e, s) = some (ret, s') →
      MapInv s'.regionTree s'.vmas s'.nextId := by
    intro e heq
    cases heq
    exact h
  unfold Mmap.doMunmap at hrun
  dsimp only at hrun
  split at hrun
  · exact hsame _ hrun
  split at hrun
  · exact hsame _ hrun
  next vma hf =>
  obtain ⟨hv, hge, hlt⟩ := hfound vma hf
  split at hrun
  · split at hrun
    · exact hsame _ hrun
    next last hl => exact hdelete last (hlast last hl) hrun
  next hfile =>
  have hnone : vma.vmFile = none := by simpa using hfile
  generalize wadd start len = stop at hrun
  split_ifs at hrun
  · exact hdelete vma hv hrun
  · exact hsame _ hrun
  · exact hsame _ hrun
  · exact hsame _ hrun
  unfold munmapChunk at hrun
  by_cases hsplit : start ≠ vma.vmStart ∧ stop ≠ vma.vmEnd
  · rw [if_pos hsplit] at hrun
    obtain ⟨⟨ret₁, s₁, upper⟩, hcut, hrun⟩ := Option.bind_eq_some_iff.mp hrun
    obtain ⟨h₁, hupper⟩ := h.splitVma hv hnone (by omega) hlt hcut
    dsimp only at hrun
    by_cases hneg : ret₁ < 0
    · rw [if_pos hneg] at hrun
      cases hrun
      exact h₁
    rw [if_neg hneg] at hrun
    obtain ⟨hmem, hanon, hus, hue⟩ := hupper.resolve_left hneg
    obtain ⟨t, ht, heq⟩ := Option.map_eq_some_iff.mp hrun
    cases heq
    exact h₁.shrinkVma hmem hanon (.inr ⟨hus.symm, by omega⟩) ht
  · rw [if_neg hsplit] at hrun
    obtain ⟨t, ht, heq⟩ := Option.map_eq_some_iff.mp hrun
    cases heq
    exact h.shrinkVma hv hnone (by omega) ht

end Unmap

end LinuxStm32.Mm.Mmap
