import LinuxStm32.Mm.MmapSharing

/-!
# Truncating a file that is mapped

Model of `nommu_shrink_inode_mappings`, `mm/nommu.c:1943-1992`, on the VMAs in the prio tree of an
inode, with the indices of `mm/prio_tree.c:28-31`. A search in the prio tree visits the VMAs whose
indices overlap the range, `overlap` of `lib/prio_tree.c:405`. The end of a VMA in the file need
not be at the end of a page, but its index is. The VMAs and regions are those that the calls of
`Mm.Mmap` make, as words.
-/

namespace LinuxStm32.Mm.Shrink

/-- `struct vm_region`. -/
structure VmRegion where
  vmStart : BitVec 32
  vmEnd : BitVec 32
  vmTop : BitVec 32
  vmPgoff : BitVec 32
  deriving DecidableEq, Repr

/-- `struct vm_area_struct`; `shared` is `VM_SHARED`, and `vmRegion` names the region. -/
structure Vma where
  vmStart : BitVec 32
  vmEnd : BitVec 32
  vmPgoff : BitVec 32
  shared : Bool
  vmRegion : Nat
  deriving DecidableEq, Repr

/-- Where the last byte of a VMA is in the file, plus one. -/
def Vma.fileEnd (v : Vma) : Nat := v.vmPgoff.toNat * 4096 + (v.vmEnd - v.vmStart).toNat

/-- Where a region ends in the file. -/
def VmRegion.fileTop (r : VmRegion) : Nat := r.vmPgoff.toNat * 4096 + (r.vmTop - r.vmStart).toNat

/-- A VMA is inside of a region. -/
structure Inside (v : Vma) (r : VmRegion) : Prop where
  start_le : r.vmStart ≤ v.vmStart
  end_le : v.vmEnd ≤ r.vmTop

/-- A VMA has bytes and a region is in order, and both start at the page of the file they are
for. -/
structure Placed (v : Vma) (r : VmRegion) : Prop where
  nonempty : v.vmStart < v.vmEnd
  ordered : r.vmStart ≤ r.vmTop
  page : r.vmPgoff.toNat * 4096 + (v.vmStart - r.vmStart).toNat = v.vmPgoff.toNat * 4096

/-- The mappings of an inode: the VMAs in its prio tree and the regions. -/
structure InodeMappings where
  vmas : List Vma
  region : Nat → VmRegion
  placed : ∀ v ∈ vmas, v.shared → Placed v (region v.vmRegion)

/-! ### The indices of the prio tree -/

/-- `RADIX_INDEX`. -/
def radixIndex (v : Vma) : BitVec 32 := v.vmPgoff

/-- `VMA_SIZE`. -/
def vmaSize (v : Vma) : BitVec 32 := (v.vmEnd - v.vmStart) >>> 12

/-- `HEAP_INDEX`. -/
def heapIndex (v : Vma) : BitVec 32 := v.vmPgoff + (vmaSize v - 1#32)

/-- `overlap`, `lib/prio_tree.c:405`. -/
def overlap (first last : BitVec 32) (v : Vma) : Bool :=
  last ≥ radixIndex v ∧ first ≤ heapIndex v

/-- The VMAs that `vma_prio_tree_foreach` visits. -/
def InodeMappings.foreach (m : InodeMappings) (first last : BitVec 32) : List Vma :=
  m.vmas.filter (overlap first last)

/-! ### Shrinking -/

/-- `r_top`. -/
def VmRegion.rTop (r : VmRegion) : BitVec 32 := (r.vmPgoff <<< 12) + (r.vmTop - r.vmStart)

/-- Cut a region at the new size of the file. -/
def cutRegion (newsize : BitVec 32) (r : VmRegion) : VmRegion :=
  if r.rTop > newsize then
    let top := r.vmTop - (r.rTop - newsize)
    { r with vmTop := top, vmEnd := if r.vmEnd > top then top else r.vmEnd }
  else r

/-- The body of the second loop. -/
def cutStep (newsize : BitVec 32) (region : Nat → VmRegion) (v : Vma) : Nat → VmRegion :=
  if v.shared then
    Function.update region v.vmRegion (cutRegion newsize (region v.vmRegion))
  else region

/-- The first and the last page of the range that is searched for VMAs. -/
def lowPage (newsize : BitVec 32) : BitVec 32 := newsize >>> 12
@[inherit_doc lowPage] def highPage (size : BitVec 32) : BitVec 32 := (size + 4095#32) >>> 12

/-- `ETXTBSY`. -/
def ETXTBSY : Int := 26

/-- `nommu_shrink_inode_mappings`, `mm/nommu.c:1943`: what it returns and the regions after. -/
def nommuShrinkInodeMappings (m : InodeMappings) (size newsize : BitVec 32) :
    Int × (Nat → VmRegion) :=
  if (m.foreach (lowPage newsize) (highPage size)).any (·.shared) then (-ETXTBSY, m.region)
  else (0, (m.foreach 0#32 0xffffffff#32).foldl (cutStep newsize) m.region)

variable {m : InodeMappings} {v : Vma} {r : VmRegion} {region : Nat → VmRegion} {i : Nat}
  {size newsize : BitVec 32} {vmas : List Vma}

/-- The second loop visits every VMA. -/
theorem foreach_all : m.foreach 0#32 0xffffffff#32 = m.vmas := by
  unfold InodeMappings.foreach
  apply List.filter_eq_self.mpr
  intro v _
  simp only [overlap, decide_eq_true_eq]
  constructor <;> bv_omega

/-! ### Cutting one region -/

@[simp] theorem vmStart_cutRegion : (cutRegion newsize r).vmStart = r.vmStart := by
  unfold cutRegion
  split <;> rfl

@[simp] theorem vmPgoff_cutRegion : (cutRegion newsize r).vmPgoff = r.vmPgoff := by
  unfold cutRegion
  split <;> rfl

theorem vmTop_cutRegion (h : newsize < r.rTop) :
    (cutRegion newsize r).vmTop = r.vmTop - (r.rTop - newsize) := by
  rw [cutRegion, if_pos h]

theorem cutRegion_of_le (h : ¬ newsize < r.rTop) : cutRegion newsize r = r := by
  rw [cutRegion, if_neg h]

theorem rTop_cutRegion (h : newsize < r.rTop) : (cutRegion newsize r).rTop = newsize := by
  rw [VmRegion.rTop, vmTop_cutRegion h, vmStart_cutRegion, vmPgoff_cutRegion, VmRegion.rTop]
  generalize r.vmPgoff <<< 12 = pos
  bv_omega

/-- A region that several VMAs share is cut once. -/
theorem cutRegion_idem : cutRegion newsize (cutRegion newsize r) = cutRegion newsize r := by
  by_cases h : newsize < r.rTop
  · apply cutRegion_of_le
    rw [rTop_cutRegion h]
    exact BitVec.lt_irrefl newsize
  · rw [cutRegion_of_le h, cutRegion_of_le h]

/-- `r_top` is where the region ends in the file, in 32 bits. -/
theorem rTop_toNat : r.rTop.toNat = r.fileTop % 4294967296 := by
  simp only [VmRegion.rTop, VmRegion.fileTop, BitVec.toNat_add, BitVec.toNat_shiftLeft,
    Nat.shiftLeft_eq]
  omega

/-- A region that starts below the new size is cut to it, unless its end wraps. -/
theorem fileTop_cutRegion_le_iff (h : r.vmPgoff.toNat * 4096 ≤ newsize.toNat) :
    (cutRegion newsize r).fileTop ≤ newsize.toNat ↔ r.fileTop < 4294967296 := by
  have htop := rTop_toNat (r := r)
  by_cases hlt : newsize < r.rTop
  · have hcut := vmTop_cutRegion hlt
    unfold VmRegion.fileTop at htop ⊢
    rw [hcut, vmStart_cutRegion, vmPgoff_cutRegion]
    generalize r.rTop = top at *
    bv_omega
  · rw [cutRegion_of_le hlt]
    unfold VmRegion.fileTop at htop ⊢
    bv_omega

/-- A VMA that ends below the new size is inside of the region that is cut iff it was before. -/
theorem Placed.inside_cutRegion_iff (h : Placed v r) (hend : v.fileEnd ≤ newsize.toNat)
    (hword : r.fileTop < 4294967296) : Inside v (cutRegion newsize r) ↔ Inside v r := by
  obtain ⟨hne, hord, hpage⟩ := h
  have htop := rTop_toNat (r := r)
  rw [Nat.mod_eq_of_lt hword] at htop
  by_cases hlt : newsize < r.rTop
  · have hcut := vmTop_cutRegion hlt
    have hstart : (cutRegion newsize r).vmStart = r.vmStart := vmStart_cutRegion
    unfold VmRegion.fileTop at htop
    unfold Vma.fileEnd at hend
    generalize r.rTop = top at *
    constructor
    · rintro ⟨hs, he⟩
      rw [hstart] at hs
      rw [hcut] at he
      exact ⟨hs, by bv_omega⟩
    · rintro ⟨hs, he⟩
      refine ⟨by rwa [hstart], ?_⟩
      rw [hcut]
      bv_omega
  · rw [cutRegion_of_le hlt]

/-- The region of a VMA starts no later in the file than the VMA ends. -/
theorem Placed.pgoff_le (h : Placed v r) : r.vmPgoff.toNat * 4096 ≤ v.fileEnd := by
  have hpage := h.page
  unfold Vma.fileEnd
  omega

/-! ### The second loop -/

theorem cutStep_or (h : region i = r ∨ region i = cutRegion newsize r) :
    cutStep newsize region v i = r ∨ cutStep newsize region v i = cutRegion newsize r := by
  unfold cutStep
  split
  · by_cases hi : i = v.vmRegion
    · subst hi
      rw [Function.update_self]
      rcases h with h | h
      · exact .inr (by rw [h])
      · exact .inr (by rw [h, cutRegion_idem])
    · rwa [Function.update_of_ne hi]
  · exact h

theorem cutStep_self (h : region v.vmRegion = r ∨ region v.vmRegion = cutRegion newsize r)
    (hv : v.shared) : cutStep newsize region v v.vmRegion = cutRegion newsize r := by
  rw [cutStep, if_pos hv, Function.update_self]
  rcases h with h | h
  · rw [h]
  · rw [h, cutRegion_idem]

theorem foldl_cutStep_of_cut (h : region i = cutRegion newsize r) :
    vmas.foldl (cutStep newsize) region i = cutRegion newsize r := by
  induction vmas generalizing region with
  | nil => exact h
  | cons w vmas ih =>
    apply ih
    have hcut : cutStep newsize region w i = cutRegion newsize r ∨
        cutStep newsize region w i = cutRegion newsize (cutRegion newsize r) := cutStep_or (.inl h)
    rwa [cutRegion_idem, or_self] at hcut

/-- The region of every shared VMA is cut. -/
theorem foldl_cutStep (hv : v ∈ vmas) (hs : v.shared)
    (h : region v.vmRegion = r ∨ region v.vmRegion = cutRegion newsize r) :
    vmas.foldl (cutStep newsize) region v.vmRegion = cutRegion newsize r := by
  induction vmas generalizing region with
  | nil => cases hv
  | cons w vmas ih =>
    rcases List.mem_cons.mp hv with rfl | hv
    · rw [List.foldl_cons]
      exact foldl_cutStep_of_cut (cutStep_self h hs)
    · exact ih hv (cutStep_or h)

/-! ### What a truncation has to guarantee -/

/-- What has to hold of a shared VMA and its region after a truncation. -/
structure Truncated (newsize : BitVec 32) (region : Nat → VmRegion) (v : Vma) : Prop where
  bytes : v.fileEnd ≤ newsize.toNat
  inside : Inside v (region v.vmRegion)
  cut : (region v.vmRegion).fileTop ≤ newsize.toNat

/-- After a success no shared mapping has bytes beyond the new size, all are inside of their
regions, and the regions end there; after an error no region has changed. -/
def ShrinkCorrect (m : InodeMappings) (newsize : BitVec 32) (res : Int × (Nat → VmRegion)) :
    Prop :=
  (res.1 = 0 → ∀ v ∈ m.vmas, v.shared → Truncated newsize res.2 v) ∧
    (res.1 ≠ 0 → res.2 = m.region)

/-- Truncating is correct iff a shared VMA has indices in the dead zone, or no shared VMA goes
beyond the new size, no region of one beyond the range of a word, and all of them were inside of
their regions. -/
theorem shrink_correct_iff (m : InodeMappings) (size newsize : BitVec 32) :
    ShrinkCorrect m newsize (nommuShrinkInodeMappings m size newsize) ↔
      (∃ v ∈ m.vmas, v.shared ∧ overlap (lowPage newsize) (highPage size) v) ∨
      ∀ v ∈ m.vmas, v.shared →
        v.fileEnd ≤ newsize.toNat ∧ (m.region v.vmRegion).fileTop < 4294967296 ∧
          Inside v (m.region v.vmRegion) := by
  have hbusy : (m.foreach (lowPage newsize) (highPage size)).any (·.shared) ↔
      ∃ v ∈ m.vmas, v.shared ∧ overlap (lowPage newsize) (highPage size) v := by
    simp only [InodeMappings.foreach, List.any_filter, List.any_eq_true, Bool.and_eq_true]
    tauto
  unfold nommuShrinkInodeMappings ShrinkCorrect
  split
  · rename_i hany
    exact iff_of_true ⟨nofun, fun _ => rfl⟩ (.inl (hbusy.mp hany))
  · rename_i hany
    rw [foreach_all, or_iff_right (mt hbusy.mpr hany)]
    simp only [forall_const, ne_eq, not_true_eq_false, false_implies, and_true]
    refine forall₂_congr fun v hv => forall_congr' fun hs => ?_
    have hplaced := m.placed v hv hs
    have hregion : m.vmas.foldl (cutStep newsize) m.region v.vmRegion =
        cutRegion newsize (m.region v.vmRegion) := foldl_cutStep hv hs (.inl rfl)
    constructor
    · rintro ⟨hbytes, hin, hcut⟩
      rw [hregion] at hin hcut
      have hword := (fileTop_cutRegion_le_iff (Nat.le_trans hplaced.pgoff_le hbytes)).mp hcut
      exact ⟨hbytes, hword, (hplaced.inside_cutRegion_iff hbytes hword).mp hin⟩
    · rintro ⟨hbytes, hword, hin⟩
      refine ⟨hbytes, ?_, ?_⟩
      · rw [hregion]
        exact (hplaced.inside_cutRegion_iff hbytes hword).mpr hin
      · rw [hregion]
        exact (fileTop_cutRegion_le_iff (Nat.le_trans hplaced.pgoff_le hbytes)).mpr hword

/-- A shared mapping of the first 4196 bytes of a file. -/
def unalignedMapping : InodeMappings where
  vmas := [⟨0x100000#32, 0x101064#32, 0#32, true, 0⟩]
  region := fun _ => ⟨0x100000#32, 0x101064#32, 0x101064#32, 0#32⟩
  placed := by
    simp only [List.forall_mem_singleton, forall_const]
    exact ⟨by decide, by decide, by decide⟩

/-- The file is cut to one page from two although the mapping goes beyond, and the region then
ends before the mapping. -/
theorem shrink_strands_mapping :
    (nommuShrinkInodeMappings unalignedMapping 8192#32 4096#32).1 = 0 ∧
      ((nommuShrinkInodeMappings unalignedMapping 8192#32 4096#32).2 0).vmTop = 0x101000#32 ∧
      ¬ ShrinkCorrect unalignedMapping 4096#32
        (nommuShrinkInodeMappings unalignedMapping 8192#32 4096#32) := by
  have hret : (nommuShrinkInodeMappings unalignedMapping 8192#32 4096#32).1 = 0 := by decide
  refine ⟨hret, by decide, fun h => ?_⟩
  exact absurd (h.1 hret _ List.mem_cons_self rfl).bytes (by decide)

/-! ### The mappings that the calls make -/

/-- A region of a run of calls. -/
def VmRegion.ofMmap (r : Mmap.VmRegion) : VmRegion :=
  ⟨.ofNat 32 r.vmStart, .ofNat 32 r.vmEnd, .ofNat 32 r.vmTop, .ofNat 32 r.vmPgoff⟩

/-- A VMA of a run of calls. -/
def Vma.ofMmap (v : Mmap.Vma) : Vma :=
  ⟨.ofNat 32 v.vmStart, .ofNat 32 v.vmEnd, .ofNat 32 v.vmPgoff, v.vmFlags.shared, v.vmRegion⟩

/-- In every state of the runs in which no mapping asks for bytes behind a region, the VMAs of
regions that may be shared are placed as truncating needs it, and inside of their regions. -/
theorem placed_of_reach {taskSize : Nat} {s : Mmap.Mem}
    (hs : (Mmap.mmapSystem taskSize).Reach
      (fun s call => Mmap.CallOk s call ∧ Mmap.ReuseOk taskSize s call) s)
    {v : Mmap.Vma} (hv : v ∈ s.vmas) {r : Mmap.VmRegion} (hr : r ∈ s.regionTree)
    (hregion : v.vmRegion = r.id) (hshare : r.vmFlags.mayShare = true)
    (htop : r.vmTop < 4294967296) :
    Placed (.ofMmap v) (.ofMmap r) ∧ Inside (.ofMmap v) (.ofMmap r) := by
  have hinv := Mmap.mapInv_of_reach hs
  obtain ⟨hpg, hstart, hne, hend⟩ := (hinv.fits v hv r hr hregion).inside hshare
  have hlt := (hinv.sound r hr).end_lt
  have hle := (hinv.sound r hr).end_le
  have hpages := (hinv.sound r hr).pages_lt hshare
  simp only [Vma.ofMmap, VmRegion.ofMmap]
  refine ⟨⟨?_, ?_, ?_⟩, ?_, ?_⟩
  all_goals
    simp only [BitVec.lt_def, BitVec.le_def, BitVec.toNat_sub, BitVec.toNat_ofNat]
    omega

end LinuxStm32.Mm.Shrink
