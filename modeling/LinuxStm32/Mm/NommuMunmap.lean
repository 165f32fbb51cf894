import LinuxStm32.Mm.Nommu

/-!
# What `do_munmap` removes

For a process whose VMAs do not overlap, `do_munmap` removes exactly the range it is given, or
refuses and changes nothing, with one exception. The walk from a file-backed VMA on, meant for
mappings that start at the same address, goes past the VMA found and erases a later one that
happens to end where the range ends.
-/

namespace LinuxStm32.Mm

open Base

namespace Nommu

variable {s s' : Nommu} {m start len : Nat} {l : List Vma} {v : Vma}

/-- Some VMA of the process contains the address. -/
def Covered (s : Nommu) (m a : Nat) : Prop :=
  ∃ v ∈ (s.mms m).mmRb, v.vmStart ≤ a ∧ a < v.vmEnd

/-- The process's tree is in order, its VMAs are not empty and do not overlap, and each points
to a region of the region tree. -/
structure MmOk (s : Nommu) (m : Nat) : Prop where
  sorted : (s.mms m).mmRb.Pairwise fun v w => vmaCmp v w = .lt
  nonempty : ∀ v ∈ (s.mms m).mmRb, v.vmStart < v.vmEnd
  disjoint : (s.mms m).mmRb.Pairwise fun v w => v.vmEnd ≤ w.vmStart ∨ w.vmEnd ≤ v.vmStart
  region : ∀ v ∈ (s.mms m).mmRb, ∃ r ∈ s.regionTree, r.id = v.vmRegion

/-- A file-backed VMA starts where the range starts but ends elsewhere, and a VMA above it ends
where the range ends. -/
def EndsLater (s : Nommu) (m start len : Nat) : Prop :=
  ∃ v ∈ (s.mms m).mmRb, ∃ w ∈ (s.mms m).mmRb, v.vmFile = true ∧ v.vmStart = start ∧
    v.vmEnd ≠ start + len ∧ v.vmStart < w.vmStart ∧ w.vmEnd = start + len

/-- What is asked of a call: with result 0 exactly the range is gone; with an error nothing
has changed. -/
structure Unmaps (s : Nommu) (m start len : Nat) (ret : Int) (s' : Nommu) : Prop where
  done : ret = 0 → ∀ a, s'.Covered m a ↔ s.Covered m a ∧ ¬ (start ≤ a ∧ a < start + len)
  refused : ret ≠ 0 → (∀ k, (s'.mms k).mmRb = (s.mms k).mmRb) ∧ s'.regionTree = s.regionTree ∧
    s'.mmapPagesAllocated = s.mmapPagesAllocated ∧ s'.pageCount = s.pageCount

/-! ### The VMA at an address -/

/-- In the order of the tree each VMA ends before the next one starts. -/
theorem MmOk.ordered (h : s.MmOk m) :
    (s.mms m).mmRb.Pairwise fun v w => v.vmEnd ≤ w.vmStart := by
  refine (h.sorted.and h.disjoint).imp_of_mem ?_
  rintro v w hv hw ⟨hlt, hd⟩
  have hle : v.vmStart ≤ w.vmStart := by
    by_contra hgt
    have : compare v.vmStart w.vmStart = .gt := Nat.compare_eq_gt.mpr (Nat.lt_of_not_le hgt)
    simp [vmaCmp, this] at hlt
  have := h.nonempty w hw
  have := h.nonempty v hv
  omega

/-- Only one VMA contains an address. -/
private theorem MmOk.unique (h : s.MmOk m) {v w : Vma} (hv : v ∈ (s.mms m).mmRb)
    (hw : w ∈ (s.mms m).mmRb) {a : Nat} (ha : v.vmStart ≤ a ∧ a < v.vmEnd)
    (ha' : w.vmStart ≤ a ∧ a < w.vmEnd) : v = w := by
  rcases pairwise_trichotomy h.ordered hv hw with he | hlt | hlt
  · exact he
  · omega
  · omega

private theorem findVmaWalk_ne_none {a : Nat}
    (h : l.Pairwise fun v w => v.vmEnd ≤ w.vmStart) (hne : ∀ v ∈ l, v.vmStart < v.vmEnd)
    (hv : v ∈ l) (ha : v.vmStart ≤ a ∧ a < v.vmEnd) : findVmaWalk a l ≠ none := by
  induction l with
  | nil => cases hv
  | cons x t ih =>
    obtain ⟨hx, ht⟩ := List.pairwise_cons.mp h
    have hxne := hne x List.mem_cons_self
    have hle : x.vmStart ≤ a := by
      rcases List.mem_cons.mp hv with rfl | hv
      · exact ha.1
      · have := hx v hv
        omega
    rw [findVmaWalk, if_neg (Nat.not_lt.mpr hle)]
    split
    · simp
    · next hge =>
      rcases List.mem_cons.mp hv with rfl | hv
      · exact absurd ha.2 hge
      · exact ih ht (fun v hv => hne v (List.mem_cons_of_mem _ hv)) hv

/-- `find_vma` finds the VMA that contains the address. -/
theorem MmOk.findVma_eq (h : s.MmOk m) (hv : v ∈ (s.mms m).mmRb) {a : Nat}
    (ha : v.vmStart ≤ a ∧ a < v.vmEnd) : findVma (s.mms m) a = some v := by
  cases hf : findVma (s.mms m) a with
  | some w =>
    obtain ⟨hw, hin⟩ := findVma_mem hf
    rw [h.unique hw hv hin ha]
  | none =>
    unfold findVma at hf
    split at hf
    · cases hf
    · exact absurd hf (findVmaWalk_ne_none h.ordered h.nonempty hv ha)

/-! ### The walk through file-backed VMAs -/

private theorem munmapFileWalk_mem {start stop : Nat} {w : Vma}
    (h : munmapFileWalk start stop l = some w) : w ∈ l ∧ w.vmEnd = stop := by
  induction l with
  | nil => cases h
  | cons x t ih =>
    simp only [munmapFileWalk] at h
    split at h
    · cases h
    · split at h
      · next he =>
        cases h
        exact ⟨List.mem_cons_self, he.symm⟩
      · exact ⟨List.mem_cons_of_mem _ (ih h).1, (ih h).2⟩

/-- The walk takes the first VMA or, if that ends elsewhere, a later one. -/
private theorem munmapFileWalk_cons {start stop : Nat} {v w : Vma}
    (h : munmapFileWalk start stop (v :: l) = some w) : start ≤ v.vmStart ∧ w.vmEnd = stop ∧
      (v.vmEnd = stop ∧ w = v ∨ v.vmEnd ≠ stop ∧ w ∈ l) := by
  refine ⟨?_, (munmapFileWalk_mem h).2, ?_⟩
  · rw [munmapFileWalk] at h
    split at h
    · cases h
    · next hs => exact Nat.le_of_not_lt hs
  · rw [munmapFileWalk] at h
    split at h
    · cases h
    · split at h
      · next he =>
        cases h
        exact .inl ⟨he.symm, rfl⟩
      · next he => exact .inr ⟨fun h => he h.symm, (munmapFileWalk_mem h).1⟩

private theorem munmapFileWalk_ne_none {start stop : Nat} {w : Vma}
    (hle : ∀ v ∈ l, start ≤ v.vmStart) (hw : w ∈ l) (he : w.vmEnd = stop) :
    munmapFileWalk start stop l ≠ none := by
  induction l with
  | nil => cases hw
  | cons x t ih =>
    rw [munmapFileWalk, if_neg (Nat.not_lt.mpr (hle x List.mem_cons_self))]
    split
    · simp
    · next hne =>
      rcases List.mem_cons.mp hw with rfl | hw
      · exact absurd he.symm hne
      · exact ih (fun v hv => hle v (List.mem_cons_of_mem _ hv)) hw

private theorem dropWhile_ne (hv : v ∈ l) :
    ∃ pre post, l = pre ++ v :: post ∧ l.dropWhile (· ≠ v) = v :: post := by
  induction l with
  | nil => cases hv
  | cons x t ih =>
    by_cases hx : x = v
    · subst hx
      exact ⟨[], t, rfl, by simp⟩
    · obtain ⟨pre, post, ht, hd⟩ := ih ((List.mem_cons.mp hv).resolve_left fun h => hx h.symm)
      refine ⟨x :: pre, post, by rw [ht]; rfl, ?_⟩
      rw [List.dropWhile_cons_of_pos (by simpa using hx), hd]

/-! ### The operations -/

private theorem setMm_mmRb (s : Nommu) (m : Nat) (mm : MmStruct) :
    ((s.setMm m mm).mms m).mmRb = mm.mmRb := by
  simp [setMm]

private theorem putNommuRegion_mms (s : Nommu) (r : VmRegion) :
    (putNommuRegion s r).mms = s.mms := by
  unfold putNommuRegion
  dsimp only
  split
  · split
    · rw [freePageSeries, (freePageLoop_frame _ _ _).1]
    · rfl
  · rfl

private theorem eraseWholeVma_mmRb (h : eraseWholeVma s m v = some s') :
    (s'.mms m).mmRb = (s.mms m).mmRb.erase v := by
  obtain ⟨r, -, he⟩ := Option.bind_eq_some_iff.mp h
  cases he
  rw [putNommuRegion_mms, setMm_mmRb]
  rfl

private theorem shrinkVma_mmRb {start stop : Nat}
    (h : shrinkVma s m v start stop = some s') : (s'.mms m).mmRb.Perm
      ((if v.vmStart < start then { v with vmEnd := start } else { v with vmStart := stop }) ::
        (s.mms m).mmRb.erase v) := by
  obtain ⟨mm, hmm, h⟩ := Option.bind_eq_some_iff.mp h
  obtain ⟨r, -, h⟩ := Option.bind_eq_some_iff.mp h
  dsimp only at h
  split at h
  · cases h
  · obtain ⟨tree, -, h⟩ := Option.bind_eq_some_iff.mp h
    cases h
    rw [freePageSeries, (freePageLoop_frame _ _ _).1]
    dsimp only
    rw [setMm_mmRb]
    exact addVmaToMm_perm hmm

private theorem splitVma_mmRb {addr : Nat} {maxMapCount : Int} {kmem : Bool}
    {r : Int × Nommu × Vma} (h : splitVma s m v addr true maxMapCount kmem = some r) :
    r.1 = -12 ∧ r.2.1 = s ∨ r.1 = 0 ∧ ∃ pgoff id,
      r.2.2 = { v with vmStart := addr, vmPgoff := pgoff } ∧
      (r.2.1.mms m).mmRb.Perm ({ v with id := id, vmRegion := id, vmEnd := addr } ::
        r.2.2 :: (s.mms m).mmRb.erase v) := by
  unfold splitVma at h
  split at h
  · cases h
    exact .inl ⟨rfl, rfl⟩
  split at h
  · cases h
    exact .inl ⟨rfl, rfl⟩
  split at h
  · cases h
    exact .inl ⟨rfl, rfl⟩
  obtain ⟨old, -, h⟩ := Option.bind_eq_some_iff.mp h
  obtain ⟨tree, -, h⟩ := Option.bind_eq_some_iff.mp h
  obtain ⟨tree', -, h⟩ := Option.bind_eq_some_iff.mp h
  obtain ⟨mm, hmm, h⟩ := Option.bind_eq_some_iff.mp h
  obtain ⟨mm', hmm', h⟩ := Option.bind_eq_some_iff.mp h
  cases h
  refine .inr ⟨rfl, _, s.nextId, rfl, ?_⟩
  dsimp only
  rw [setMm_mmRb]
  exact (addVmaToMm_perm hmm').trans ((addVmaToMm_perm hmm).cons _)

/-- A VMA of the tree is replaced by pieces of it: exactly the rest of it is gone. -/
private theorem MmOk.replace (h : s.MmOk m) (hv : v ∈ (s.mms m).mmRb)
    (parts : List Vma) (hp : (s'.mms m).mmRb.Perm (parts ++ (s.mms m).mmRb.erase v))
    (hin : v.vmStart ≤ start ∧ start + len ≤ v.vmEnd)
    (hparts : ∀ a, (∃ w ∈ parts, w.vmStart ≤ a ∧ a < w.vmEnd) ↔
      (v.vmStart ≤ a ∧ a < v.vmEnd) ∧ ¬ (start ≤ a ∧ a < start + len)) (a : Nat) :
    s'.Covered m a ↔ s.Covered m a ∧ ¬ (start ≤ a ∧ a < start + len) := by
  have hsplit : s.Covered m a ↔ (v.vmStart ≤ a ∧ a < v.vmEnd) ∨
      ∃ w ∈ (s.mms m).mmRb.erase v, w.vmStart ≤ a ∧ a < w.vmEnd := by
    simp only [Covered, (List.perm_cons_erase hv).mem_iff, List.mem_cons, exists_eq_or_imp]
  have hrest : ∀ w ∈ (s.mms m).mmRb.erase v, w.vmStart ≤ a ∧ a < w.vmEnd →
      ¬ (start ≤ a ∧ a < start + len) := by
    intro w hw ha hr
    have hpw := (List.perm_cons_erase hv).pairwise_iff (fun {_ _} => Or.symm) |>.mp h.disjoint
    have := (List.pairwise_cons.mp hpw).1 w hw
    omega
  have hsplit' : s'.Covered m a ↔ ((v.vmStart ≤ a ∧ a < v.vmEnd) ∧
      ¬ (start ≤ a ∧ a < start + len)) ∨
      ∃ w ∈ (s.mms m).mmRb.erase v, w.vmStart ≤ a ∧ a < w.vmEnd := by
    simp only [Covered, hp.mem_iff, List.mem_append, or_and_right, exists_or, hparts]
  rw [hsplit, hsplit']
  constructor
  · rintro (hv | ⟨w, hw, ha⟩)
    · exact ⟨.inl hv.1, hv.2⟩
    · exact ⟨.inr ⟨w, hw, ha⟩, hrest w hw ha⟩
  · rintro ⟨hv | hw, hr⟩
    · exact .inl ⟨hv, hr⟩
    · exact .inr hw

/-! ### The call -/

private theorem MmOk.unmapsWhole (h : s.MmOk m) {v w : Vma} (hv : v ∈ (s.mms m).mmRb)
    (hs : v.vmStart = start) (he : v.vmEnd = start + len)
    (ht : eraseWholeVma (s.cache m w) m v = some s') : Unmaps s m start len 0 s' := by
  have hrb := eraseWholeVma_mmRb ht
  rw [s.cache_mmRb] at hrb
  refine ⟨fun _ => h.replace hv [] (by rw [hrb]; rfl) (by omega) fun a => ?_,
    fun h0 => absurd rfl h0⟩
  simp only [List.not_mem_nil, false_and, exists_false, false_iff]
  omega

/-- Without a later VMA that ends where the range ends, a call removes exactly the range. -/
private theorem MmOk.unmaps (h : s.MmOk m) (hlen : start + len < 4294967296)
    (hlater : ¬ s.EndsLater m start len) {maxMapCount : Int} {kmem : Bool} {ret : Int}
    (hret : doMunmap s m start len maxMapCount kmem = some (ret, s')) :
    Unmaps s m start len ret s' := by
  have hstop : wadd start len = start + len := wadd_of_lt hlen
  have hcase := doMunmap_case s m start len maxMapCount kmem
  rw [hret, hstop] at hcase
  generalize hr : some (ret, s') = r at hcase
  cases hcase with
  | refused ret' t hne ht =>
    cases hr
    refine ⟨fun h0 => absurd h0 hne, fun _ => ?_⟩
    rcases ht with rfl | ⟨v, rfl⟩
    · exact ⟨fun _ => rfl, rfl, rfl, rfl⟩
    · exact ⟨s.cache_mmRb m v, rfl, rfl, rfl⟩
  | file v w hv hf hw =>
    obtain ⟨t, ht, heq⟩ := Option.map_eq_some_iff.mp hr.symm
    cases heq
    obtain ⟨hmem, hin⟩ := findVma_mem hv
    obtain ⟨pre, post, hrb, hd⟩ := dropWhile_ne hmem
    rw [hd] at hw
    obtain ⟨hs, he, hwv⟩ := munmapFileWalk_cons hw
    rcases hwv with ⟨hve, rfl⟩ | ⟨hne, hwp⟩
    · exact h.unmapsWhole hmem (by omega) (by omega) ht
    · -- the walk went past the VMA found
      have hord := h.ordered
      rw [hrb] at hord
      have hpost := (List.pairwise_cons.mp (List.pairwise_append.mp hord).2.1).1 w hwp
      have hmw : w ∈ (s.mms m).mmRb := by
        rw [hrb]
        exact List.mem_append_right _ (List.mem_cons_of_mem _ hwp)
      exact absurd ⟨v, hmem, w, hmw, hf, by omega, hne, by omega, he⟩ hlater
  | whole v hv hf hs he =>
    obtain ⟨t, ht, heq⟩ := Option.map_eq_some_iff.mp hr.symm
    cases heq
    exact h.unmapsWhole (findVma_mem hv).1 hs.symm he.symm ht
  | shrink v hv hf hle hal hcut =>
    obtain ⟨t, ht, heq⟩ := Option.map_eq_some_iff.mp hr.symm
    cases heq
    obtain ⟨hmem, hin⟩ := findVma_mem hv
    have hrb := shrinkVma_mmRb ht
    rw [s.cache_mmRb] at hrb
    refine ⟨fun _ => h.replace hmem [_] hrb (by omega) fun a => ?_, fun h0 => absurd rfl h0⟩
    simp only [List.mem_singleton, exists_eq_left]
    split <;> (dsimp only; omega)
  | hole v hv hf hlt hal hal' hs hc hk =>
    obtain ⟨r, hsplit, hr⟩ := Option.bind_eq_some_iff.mp hr.symm
    obtain ⟨hmem, hin⟩ := findVma_mem hv
    rcases splitVma_mmRb hsplit with ⟨h1, h2⟩ | ⟨h1, pgoff, id, hv', hrb⟩
    · rw [if_pos (by rw [h1]; decide)] at hr
      cases hr
      refine ⟨fun h0 => ?_, fun _ => ?_⟩
      · rw [h1] at h0
        cases h0
      · rw [h2]
        exact ⟨s.cache_mmRb m v, rfl, rfl, rfl⟩
    · rw [if_neg (by rw [h1]; decide)] at hr
      obtain ⟨t, ht, heq⟩ := Option.map_eq_some_iff.mp hr
      cases heq
      rw [s.cache_mmRb] at hrb
      have hcut := (hrb.trans (.swap _ _ _)).erase r.2.2
      rw [List.erase_cons_head] at hcut
      have hrb' := (shrinkVma_mmRb ht).trans (hcut.cons _)
      rw [hv', if_neg (Nat.lt_irrefl start)] at hrb'
      refine ⟨fun _ => h.replace hmem [_, _] hrb' (by omega) fun a => ?_, fun h0 => absurd rfl h0⟩
      simp only [List.mem_cons, List.not_mem_nil, or_false, exists_eq_or_imp, exists_eq_left]
      omega

/-- The walk past the VMA found erases a later one and leaves the first. -/
private theorem MmOk.endsLater_not_unmaps (h : s.MmOk m) (hlen : start + len < 4294967296)
    (hlater : s.EndsLater m start len) (maxMapCount : Int) (kmem : Bool) :
    ∃ s', doMunmap s m start len maxMapCount kmem = some (0, s') ∧
      ¬ Unmaps s m start len 0 s' := by
  obtain ⟨v, hv, w, hw, hf, hs, hne, hlt, he⟩ := hlater
  have hvne := h.nonempty v hv
  have hwne := h.nonempty w hw
  have hfind : findVma (s.mms m) start = some v := h.findVma_eq hv (by omega)
  obtain ⟨pre, post, hrb, hd⟩ := dropWhile_ne hv
  have hord := h.ordered
  rw [hrb] at hord hw
  obtain ⟨-, hvpost, hpre⟩ := List.pairwise_append.mp hord
  have hafter : ∀ x ∈ v :: post, start ≤ x.vmStart := by
    intro x hx
    rcases List.mem_cons.mp hx with rfl | hx
    · exact Nat.le_of_eq hs.symm
    · have := (List.pairwise_cons.mp hvpost).1 x hx
      omega
  have hwp : w ∈ v :: post := by
    rcases List.mem_append.mp hw with hwpre | hwp
    · have := hpre w hwpre v List.mem_cons_self
      omega
    · exact hwp
  -- the walk erases some other VMA `x`
  obtain ⟨x, hx⟩ := Option.ne_none_iff_exists'.mp (munmapFileWalk_ne_none hafter hwp he)
  obtain ⟨-, hxe, ⟨hve, -⟩ | ⟨-, hxp⟩⟩ := munmapFileWalk_cons hx
  · exact absurd hve hne
  have hxmem : x ∈ (s.mms m).mmRb := by
    rw [hrb]
    exact List.mem_append_right _ (List.mem_cons_of_mem _ hxp)
  obtain ⟨s', hs'⟩ : ∃ s', eraseWholeVma (s.cache m v) m x = some s' := by
    obtain ⟨r, hr, hid⟩ := h.region x hxmem
    have hfound : (s.cache m v).regionOf x ≠ none := by
      intro hnone
      have := List.find?_eq_none.mp hnone r hr
      simp [hid] at this
    obtain ⟨q, hq⟩ := Option.ne_none_iff_exists'.mp hfound
    exact ⟨_, by rw [eraseWholeVma, hq]; rfl⟩
  refine ⟨s', ?_, fun hu => ?_⟩
  · have hlen0 : len ≠ 0 := by omega
    simp only [doMunmap, if_neg hlen0, hfind, hf, ↓reduceIte, wadd_of_lt hlen, s.cache_mmRb, hd,
      hx, hs', Option.map_some]
  · have hmem' : v ∈ (s'.mms m).mmRb := by
      rw [eraseWholeVma_mmRb hs', s.cache_mmRb]
      refine (List.mem_erase_of_ne ?_).mpr hv
      rintro rfl
      exact hne hxe
    exact ((hu.done rfl start).mp ⟨v, hmem', by omega⟩).2 (by omega)

end Nommu

/-- `do_munmap` removes exactly what it is asked to, or refuses and changes nothing, unless a
file-backed VMA starts at the range, ends elsewhere, and a later VMA ends where it ends. -/
theorem do_munmap_exact {s : Nommu} {m start len : Nat} (h : s.MmOk m)
    (hlen : start + len < 4294967296) (maxMapCount : Int) (kmem : Bool) :
    (∀ ret s', doMunmap s m start len maxMapCount kmem = some (ret, s') →
      s.Unmaps m start len ret s') ↔ ¬ s.EndsLater m start len := by
  constructor
  · intro hall hlater
    obtain ⟨s', hs', hnot⟩ := h.endsLater_not_unmaps hlen hlater maxMapCount kmem
    exact hnot (hall 0 s' hs')
  · exact fun hlater ret s' hret => h.unmaps hlen hlater hret

/-- A process with two file-backed VMAs and an anonymous one. -/
def threeVmas : Nommu where
  mms m := if m = 0 then
    ⟨[⟨0, 0xC0100000, 0xC0101000, 0, true, true, 0⟩, ⟨1, 0xC0102000, 0xC0104000, 0, true, true, 1⟩,
      ⟨2, 0xC0110000, 0xC0113000, 0, false, false, 2⟩], none, 3⟩ else ⟨[], none, 0⟩
  regionTree := [⟨0, 0xC0100000, 0xC0101000, 0xC0101000, 0, 1, true⟩,
    ⟨1, 0xC0102000, 0xC0104000, 0xC0104000, 0, 1, true⟩,
    ⟨2, 0xC0110000, 0xC0113000, 0xC0114000, 0, 1, true⟩]
  mmapPagesAllocated := 7
  pageCount p := if p ∈ [0xC0100, 0xC0102, 0xC0103, 0xC0110, 0xC0111, 0xC0112, 0xC0113] then some 1
    else none
  badFree := false
  nextId := 3

private theorem threeVmas_mmOk : threeVmas.MmOk 0 where
  sorted := by decide
  nonempty := by decide
  disjoint := by decide
  region := by decide

/-- A hole in the anonymous VMA is exact. -/
theorem do_munmap_exact_hole : ∃ s', doMunmap threeVmas 0 0xC0111000 0x1000 65536 true =
    some (0, s') ∧ threeVmas.Unmaps 0 0xC0111000 0x1000 0 s' := by
  have hnot : ¬ threeVmas.EndsLater 0 0xC0111000 0x1000 := by
    unfold Nommu.EndsLater
    decide
  exact ⟨_, rfl, (do_munmap_exact threeVmas_mmOk (by decide) 65536 true).mpr hnot 0 _ rfl⟩

/-- The range from the first file-backed VMA to the end of the second: the call reports success
and removes the second one only. -/
theorem do_munmap_leaves_first : threeVmas.MmOk 0 ∧
    ∃ s', doMunmap threeVmas 0 0xC0100000 0x4000 65536 true = some (0, s') ∧
      s'.Covered 0 0xC0100000 ∧ ¬ s'.Covered 0 0xC0102000 := by
  refine ⟨threeVmas_mmOk, _, rfl, ?_⟩
  unfold Nommu.Covered
  decide

end LinuxStm32.Mm
