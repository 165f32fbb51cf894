import LinuxStm32.Base.WordMem
import LinuxStm32.Mm.MmapPlan

/-!
# Shared mappings of contiguous ramfs files

Runs of `MAP_SHARED` mappings of ramfs files whose pages are contiguous, of unmappings and of
exits. `ramfs_nommu_get_unmapped_area`, `fs/ramfs/file-nommu.c:197–250`, then answers with the
address of the first page of the request, so a region starts where its page of the file is. Two
regions of one file start at the same address exactly when they start at the same page; inexact
overlaps are not refused for files that can be mapped directly, and the second region then meets
the first in the tree and stops at the `BUG()`.
-/

namespace LinuxStm32.Mm.Mmap

open Base

/-! ### Files and calls -/

/-- Where the pages of the files are: file `i` has the pages from `base i` on, and no page belongs
to two files. All lie below the addresses that stand for errors. -/
structure RamfsLayout where
  base : Nat → Nat
  size : Nat → Nat
  below : ∀ i, base i + size i < 1048575
  apart : ∀ i j p q, p < size i → q < size j → base i + p = base j + q → i = j ∧ p = q

/-- A shared mapping of pages inside a file. -/
structure RamfsMmap (L : RamfsLayout) (req : Request) (env : Answers) (file : File) : Prop where
  file_eq : req.file = some file
  shared : req.mapType = .shared
  len_lt : req.len < 4294967296
  inside : req.pgoff + pagesOf req.len ≤ L.size file.inode
  area : env.unmappedArea = (L.base file.inode + req.pgoff) * 4096
  mmap : env.mmap = 0

/-- The calls of the runs: such mappings, unmappings of mappings that exist, and exits. -/
def RamfsCall (L : RamfsLayout) (s : Mem) : Call → Prop
  | .mmap _ req env => ∃ file, RamfsMmap L req env file
  | .munmap _ _ _ env => (∀ v, env.found = some v → v ∈ s.vmas) ∧
    ∀ v, env.last = some v → v ∈ s.vmas
  | .exit _ => True

/-- A region of the file starts at the page of the request, and no region of the file holds all its
pages. -/
def Collides (s : Mem) (req : Request) (inode : Nat) : Prop :=
  (∃ r ∈ s.regionTree, r.vmFile.map (·.inode) = some inode ∧ r.vmPgoff = req.pgoff) ∧
    ∀ r ∈ s.regionTree, r.vmFile.map (·.inode) = some inode →
      ¬ (r.vmPgoff ≤ req.pgoff ∧ req.pgoff + pagesOf req.len ≤ r.vmPgoff + r.rpglen)

/-! ### The regions of a run -/

/-- A region that maps pages of its file. -/
structure RamfsRegion (L : RamfsLayout) (r : VmRegion) (file : File) : Prop where
  file_eq : r.vmFile = some file
  mayShare : r.vmFlags.mayShare = true
  pages_pos : 0 < r.rpglen
  inside : r.vmPgoff + r.rpglen ≤ L.size file.inode
  start : r.vmStart = (L.base file.inode + r.vmPgoff) * 4096

/-- What holds in all states of the runs. -/
structure RamfsInv (L : RamfsLayout) (s : Mem) : Prop where
  region : ∀ r ∈ s.regionTree, ∃ file, RamfsRegion L r file
  sorted : s.regionTree.Pairwise fun a b => a.vmStart < b.vmStart
  files : ∀ v ∈ s.vmas, v.vmFile.isSome

theorem SameShape.ramfs {L : RamfsLayout} {r r' : VmRegion} {file : File} (h : SameShape r r')
    (hr : RamfsRegion L r file) : RamfsRegion L r' file where
  file_eq := h.vmFile.trans hr.file_eq
  mayShare := by rw [h.vmFlags, hr.mayShare]
  pages_pos := by rw [h.rpglen]; exact hr.pages_pos
  inside := by rw [h.vmPgoff, h.rpglen]; exact hr.inside
  start := by rw [h.vmStart, h.vmPgoff, hr.start]

/-- Changes to the uses and the tops of regions keep the invariant. -/
theorem RamfsInv.onRegion {L : RamfsLayout} {s : Mem} (h : RamfsInv L s) (id : Nat)
    {f : VmRegion → VmRegion} (hf : ∀ r, SameShape r (f r)) :
    (∀ r ∈ onRegion id f s.regionTree, ∃ file, RamfsRegion L r file) ∧
      (onRegion id f s.regionTree).Pairwise fun a b => a.vmStart < b.vmStart := by
  have hshape : ∀ r, SameShape r (if r.id = id then f r else r) := by
    intro r
    split_ifs
    · exact hf r
    · exact ⟨rfl, rfl, rfl, rfl, rfl⟩
  constructor
  · intro r hr
    obtain ⟨q, hq, rfl⟩ := List.mem_map.mp hr
    obtain ⟨file, hfile⟩ := h.region q hq
    exact ⟨file, (hshape q).ramfs hfile⟩
  · apply List.pairwise_map.mpr
    apply h.sorted.imp
    intro a b hab
    rw [(hshape a).vmStart, (hshape b).vmStart]
    exact hab

/-! ### Unmapping -/

/-- Dropping a VMA keeps the invariant. -/
theorem RamfsInv.deleteVma {L : RamfsLayout} {s s' : Mem} {vma : Vma} (h : RamfsInv L s)
    (hrun : deleteVma s vma = some s') : RamfsInv L s' := by
  obtain ⟨region, -, htree, hvmas, -⟩ := deleteVma_fields hrun
  have hfiles : ∀ v ∈ s'.vmas, v.vmFile.isSome := by
    rw [hvmas]
    exact fun v hv => h.files v (List.mem_of_mem_erase hv)
  suffices hkept : (∀ r ∈ s'.regionTree, ∃ file, RamfsRegion L r file) ∧
      s'.regionTree.Pairwise fun a b => a.vmStart < b.vmStart from ⟨hkept.1, hkept.2, hfiles⟩
  rw [htree]
  unfold treeAfterPut
  split_ifs
  · exact ⟨fun r hr => h.region r (List.mem_of_mem_erase hr),
      h.sorted.sublist List.erase_sublist⟩
  · exact ⟨h.region, h.sorted⟩
  · exact h.onRegion region.id fun r => ⟨rfl, rfl, rfl, rfl, rfl⟩

theorem RamfsInv.exitMmap {L : RamfsLayout} {s s' : Mem} {l : List Vma} (h : RamfsInv L s)
    (hrun : exitMmap s l = some s') : RamfsInv L s' := by
  induction l generalizing s with
  | nil =>
    cases hrun
    exact h
  | cons vma l ih =>
    obtain ⟨t, ht, hrest⟩ := Option.bind_eq_some_iff.mp hrun
    exact ih (h.deleteVma ht) hrest

/-- All VMAs have a file, so an unmapping drops a whole VMA or nothing. -/
theorem RamfsInv.doMunmap {L : RamfsLayout} {s s' : Mem} {start len : Nat} {env : MunmapAnswers}
    {ret : Int} (h : RamfsInv L s) (hfound : ∀ v, env.found = some v → v ∈ s.vmas)
    (hrun : doMunmap s start len env = some (ret, s')) : RamfsInv L s' := by
  unfold Mmap.doMunmap at hrun
  dsimp only at hrun
  split at hrun
  next =>
    cases hrun
    exact h
  next =>
  split at hrun
  next =>
    cases hrun
    exact h
  next vma hf =>
  rw [if_pos (h.files vma (hfound vma hf))] at hrun
  split at hrun
  next =>
    cases hrun
    exact h
  next =>
    obtain ⟨t, ht, heq⟩ := Option.map_eq_some_iff.mp hrun
    cases heq
    exact h.deleteVma ht

/-! ### Mapping -/

section Request

variable {taskSize : Nat} {L : RamfsLayout} {s : Mem} {req : Request} {env : Answers} {file : File}

/-- How the search for a region ends when inexact overlaps are skipped. -/
theorem searchRegions_direct (inode pgoff pglen : Nat) (tree : List VmRegion) :
    (searchRegions inode pgoff pglen true tree = .none ∧ ∀ r ∈ tree,
        ¬ (r.overlaps inode pgoff (wadd pgoff pglen) = true ∧ r.covers pgoff pglen = true)) ∨
      ∃ r ∈ tree, searchRegions inode pgoff pglen true tree = .found r ∧
        r.overlaps inode pgoff (wadd pgoff pglen) = true ∧ r.covers pgoff pglen = true := by
  induction tree with
  | nil => exact .inl ⟨rfl, fun r hr => absurd hr List.not_mem_nil⟩
  | cons r tree ih =>
    by_cases hboth : r.overlaps inode pgoff (wadd pgoff pglen) = true ∧ r.covers pgoff pglen = true
    · refine .inr ⟨r, List.mem_cons_self, ?_, hboth⟩
      simp [searchRegions, hboth.1, hboth.2]
    · have hskip : searchRegions inode pgoff pglen true (r :: tree) =
          searchRegions inode pgoff pglen true tree := by
        cases ho : r.overlaps inode pgoff (wadd pgoff pglen) with
        | false => simp [searchRegions, ho]
        | true =>
          have hc : r.covers pgoff pglen = false := by simpa [ho] using hboth
          simp [searchRegions, ho, hc]
      rw [hskip]
      rcases ih with ⟨hnone, hall⟩ | ⟨q, hq, hfound⟩
      · exact .inl ⟨hnone, List.forall_mem_cons.mpr ⟨hboth, hall⟩⟩
      · exact .inr ⟨q, List.mem_cons_of_mem _ hq, hfound⟩

/-- A region of a run is shared with a request when it holds all its pages. -/
theorem RamfsRegion.covers_iff {r : VmRegion} {rfile : File} (hr : RamfsRegion L r rfile)
    {inode pgoff pglen : Nat} (hpos : 0 < pglen) (hin : pgoff + pglen ≤ L.size inode) :
    (r.overlaps inode pgoff (wadd pgoff pglen) = true ∧ r.covers pgoff pglen = true) ↔
      r.vmFile.map (·.inode) = some inode ∧ r.vmPgoff ≤ pgoff ∧
        pgoff + pglen ≤ r.vmPgoff + r.rpglen := by
  have h1 := L.below rfile.inode
  have h2 := L.below inode
  have h3 := hr.inside
  have h4 := hr.pages_pos
  have hend : wadd pgoff pglen = pgoff + pglen := wadd_of_lt (by omega)
  have hrend : r.rpgend = r.vmPgoff + r.rpglen := wadd_of_lt (by omega)
  simp only [VmRegion.overlaps, VmRegion.covers, hend, hrend, hr.mayShare, Bool.true_and,
    Bool.and_eq_true, Bool.or_eq_true, beq_iff_eq, decide_eq_true_eq, Bool.not_eq_true',
    decide_eq_false_iff_not]
  constructor
  · rintro ⟨⟨⟨hinode, hlt⟩, hlt'⟩, ⟨heq, hlen⟩ | ⟨hle, hle'⟩⟩
    · exact ⟨hinode, by omega, by omega⟩
    · exact ⟨hinode, hle, hle'⟩
  · rintro ⟨hinode, hle, hle'⟩
    exact ⟨⟨⟨hinode, by omega⟩, by omega⟩, .inr ⟨hle, hle'⟩⟩

/-- The region that a shared mapping makes. -/
def ramfsRegion (s : Mem) (req : Request) (env : Answers) : VmRegion :=
  ⟨s.nextId, env.unmappedArea, wadd env.unmappedArea req.len, wadd env.unmappedArea req.len,
    req.pgoff, 1, ⟨true, true, false, req.executable⟩, req.file⟩

/-- It maps pages of its file. -/
theorem RamfsMmap.region (h : RamfsMmap L req env file) {caps : Caps}
    (hv : validateMmapRequest taskSize req env = .ok caps) :
    RamfsRegion L (ramfsRegion s req env) file := by
  obtain ⟨hpos, hpages, hwrap⟩ := granted_pages h.len_lt hv
  have hbelow := L.below file.inode
  have hin := h.inside
  have harea : env.unmappedArea < 4294967296 := by
    rw [h.area]
    omega
  have hlen : (ramfsRegion s req env).rpglen = pagesOf req.len := by
    rw [VmRegion.rpglen, ramfsRegion, wsub_wadd harea h.len_lt]
  refine ⟨h.file_eq, rfl, ?_, ?_, h.area⟩
  · rw [hlen, hpages]
    omega
  · rw [hlen]
    exact hin

/-- The plan of a shared mapping that is granted: it shares the region that holds its pages, or
makes one where its first page is. -/
theorem RamfsMmap.plan (h : RamfsMmap L req env file) (hg : Granted taskSize req env)
    (hinv : RamfsInv L s) :
    (∃ r ∈ s.regionTree, ∃ f, (∀ q, SameShape q (f q)) ∧
        plan taskSize s req env = .share ⟨true, true, false, req.executable⟩ r f ∧
        r.vmFile.map (·.inode) = some file.inode ∧ r.vmPgoff ≤ req.pgoff ∧
          req.pgoff + pagesOf req.len ≤ r.vmPgoff + r.rpglen) ∨
      plan taskSize s req env = .create s.pages (ramfsRegion s req env)
          env.unmappedArea (wadd env.unmappedArea req.len) ∧
        ∀ r ∈ s.regionTree, r.vmFile.map (·.inode) = some file.inode →
          ¬ (r.vmPgoff ≤ req.pgoff ∧ req.pgoff + pagesOf req.len ≤ r.vmPgoff + r.rpglen) := by
  obtain ⟨⟨caps, hv⟩, hregion, hvma⟩ := hg
  obtain ⟨hdirect, hflags⟩ := granted_shared h.file_eq h.shared hv env.traced
  obtain ⟨hpos, hpages, hwrap⟩ := granted_pages h.len_lt hv
  have hbelow := L.below file.inode
  have hin := h.inside
  have hpglen : 0 < pagesOf req.len := by
    rw [hpages]
    omega
  have hplan : Mmap.plan taskSize s req env =
      planMapping s req env caps ⟨true, true, false, req.executable⟩ := by
    unfold Mmap.plan
    rw [hv, ← hflags]
    simp only [hregion, hvma, not_true_eq_false, if_false]
  have hsearch : req.search caps s.regionTree =
      searchRegions file.inode req.pgoff (pagesOf req.len) true s.regionTree := by
    rw [Request.search, h.file_eq, hdirect]
    rfl
  rw [hplan, planMapping, if_pos rfl, hsearch]
  rcases searchRegions_direct file.inode req.pgoff (pagesOf req.len) s.regionTree with
    ⟨hnone, hall⟩ | ⟨r, hr, hfound, hboth⟩
  · right
    have hsite : siteMapping caps env.unmappedArea = .ok (caps, some env.unmappedArea) := by
      have harea := h.area
      unfold siteMapping
      rw [if_neg (by simp [hdirect]), if_neg (by omega)]
    rw [hnone]
    dsimp only
    rw [hsite]
    constructor
    · simp [setupMapping, setupMapped, doMmapSharedFile, h.file_eq, h.mmap, Request.region,
        Plan.ofSetup, ramfsRegion]
    · intro r hr hinode hcover
      obtain ⟨rfile, hrfile⟩ := hinv.region r hr
      exact hall r hr ((hrfile.covers_iff hpglen hin).mpr ⟨hinode, hcover⟩)
  · left
    obtain ⟨rfile, hrfile⟩ := hinv.region r hr
    have hmapped : (shareMapped env r).1 = 0 := by
      unfold shareMapped doMmapSharedFile
      rw [if_pos h.mmap]
      split_ifs <;> rfl
    rw [hfound]
    dsimp only
    rw [if_neg (by omega)]
    exact ⟨r, hr, _, shareMapped_shape env r, rfl, (hrfile.covers_iff hpglen hin).mp hboth⟩

/-- A region meets another in the tree when they start at one address. -/
theorem addNommuRegion_eq_none_iff {tree : List VmRegion} {region : VmRegion}
    (hsorted : tree.Pairwise fun a b => a.vmStart < b.vmStart) :
    addNommuRegion tree region = none ↔ ∃ r ∈ tree, region.vmStart = r.vmStart := by
  have hcmp : tree.Pairwise fun a b => regionCmp region a = .lt → regionCmp region b = .lt := by
    apply hsorted.imp
    intro a b hab
    simp only [regionCmp, Nat.compare_eq_lt]
    omega
  rw [addNommuRegion, treeInsert_eq_none_iff hcmp]
  simp only [regionCmp, Nat.compare_eq_eq]

/-- A region that is put into the tree is put where it belongs. -/
theorem addNommuRegion_sorted {tree tree' : List VmRegion} {region : VmRegion}
    (h : addNommuRegion tree region = some tree')
    (hsorted : tree.Pairwise fun a b => a.vmStart < b.vmStart) :
    tree'.Pairwise fun a b => a.vmStart < b.vmStart := by
  have hapart : ∀ r ∈ tree, regionCmp region r ≠ .eq := by
    intro r hr heq
    have hnone := (addNommuRegion_eq_none_iff hsorted).mpr ⟨r, hr, Nat.compare_eq_eq.mp heq⟩
    rw [h] at hnone
    cases hnone
  obtain ⟨sorted, hput, hs⟩ := treeInsert_sorted
    (R := fun a b : VmRegion => a.vmStart < b.vmStart) (fun h₁ h₂ => Nat.lt_trans h₁ h₂)
    (fun _ _ h => Nat.compare_eq_lt.mp h) (fun _ _ h => Nat.compare_eq_gt.mp h) hapart hsorted
  obtain rfl := Option.some.inj (hput.symm.trans h)
  exact hs

/-- The new region meets another in the tree exactly when a region of the file starts at its
page. -/
theorem RamfsMmap.insert_eq_none_iff (h : RamfsMmap L req env file) {caps : Caps}
    (hv : validateMmapRequest taskSize req env = .ok caps) (hinv : RamfsInv L s) :
    addNommuRegion s.regionTree (ramfsRegion s req env) = none ↔
      ∃ r ∈ s.regionTree, r.vmFile.map (·.inode) = some file.inode ∧ r.vmPgoff = req.pgoff := by
  obtain ⟨hpos, hpages, hwrap⟩ := granted_pages h.len_lt hv
  rw [addNommuRegion_eq_none_iff hinv.sorted]
  apply exists_congr
  intro r
  apply and_congr_right
  intro hr
  obtain ⟨rfile, hrfile⟩ := hinv.region r hr
  have hfile : r.vmFile.map (·.inode) = some rfile.inode := by rw [hrfile.file_eq]; rfl
  have hmeet : (ramfsRegion s req env).vmStart = r.vmStart ↔
      L.base file.inode + req.pgoff = L.base rfile.inode + r.vmPgoff := by
    rw [ramfsRegion, h.area, hrfile.start]
    dsimp only
    omega
  have hin := h.inside
  have hrin := hrfile.inside
  have hrpos := hrfile.pages_pos
  rw [hmeet, hfile, Option.some.injEq]
  constructor
  · intro heq
    obtain ⟨h1, h2⟩ := L.apart _ _ _ _ (by omega) (by omega) heq
    exact ⟨h1.symm, h2.symm⟩
  · rintro ⟨h1, h2⟩
    rw [h1, h2]

/-- A shared mapping keeps the invariant. -/
theorem RamfsInv.doMmapPgoff (hinv : RamfsInv L s) (h : RamfsMmap L req env file) {mm : Nat}
    {ret : Int} {s' : Mem} (hrun : doMmapPgoff taskSize s mm req env = some (ret, s')) :
    RamfsInv L s' := by
  have hfiles : ∀ v ∈ s.vmas, v.vmFile.isSome := hinv.files
  have hfile : req.file.isSome := by rw [h.file_eq]; rfl
  rw [doMmapPgoff_eq] at hrun
  by_cases hg : Granted taskSize req env
  swap
  · obtain ⟨e, he⟩ := plan_of_not_granted (s := s) hg
    rw [he] at hrun
    cases hrun
    exact ⟨hinv.region, hinv.sorted, hinv.files⟩
  rcases h.plan hg hinv with ⟨r, hr, f, hf, hplan, -⟩ | ⟨hplan, -⟩
  · rw [hplan] at hrun
    cases hrun
    have hused := hinv.onRegion r.id (f := fun r => { r with vmUsage := r.vmUsage + 1 })
      fun r => ⟨rfl, rfl, rfl, rfl, rfl⟩
    have hinv' : RamfsInv L { s with
        regionTree := Mmap.onRegion r.id (fun r => { r with vmUsage := r.vmUsage + 1 })
          s.regionTree } :=
      ⟨hused.1, hused.2, hinv.files⟩
    have hmapped := hinv'.onRegion r.id hf
    exact ⟨hmapped.1, hmapped.2, List.forall_mem_cons.mpr ⟨hfile, hfiles⟩⟩
  · obtain ⟨caps, hv⟩ := hg.1
    rw [hplan] at hrun
    obtain ⟨tree, htree, heq⟩ := Option.map_eq_some_iff.mp hrun
    cases heq
    refine ⟨?_, addNommuRegion_sorted htree hinv.sorted, List.forall_mem_cons.mpr ⟨hfile, hfiles⟩⟩
    intro r hr
    rcases List.mem_cons.mp ((treeInsert_perm htree).mem_iff.mp hr) with rfl | hr
    · exact ⟨file, h.region hv⟩
    · exact hinv.region r hr

/-- A shared mapping stops at the `BUG()` exactly when it is granted and collides. -/
theorem RamfsInv.mmap_eq_none_iff (hinv : RamfsInv L s) (h : RamfsMmap L req env file) (mm : Nat) :
    Mmap.doMmapPgoff taskSize s mm req env = none ↔
      Granted taskSize req env ∧ Collides s req file.inode := by
  rw [doMmapPgoff_eq]
  by_cases hg : Granted taskSize req env
  swap
  · obtain ⟨e, he⟩ := plan_of_not_granted (s := s) hg
    rw [he]
    exact ⟨fun hnone => (nomatch hnone), fun hboth => absurd hboth.1 hg⟩
  obtain ⟨caps, hv⟩ := hg.1
  rcases h.plan hg hinv with ⟨r, hr, f, -, hplan, hinode, hcover⟩ | ⟨hplan, hall⟩
  · rw [hplan]
    exact ⟨fun hnone => (nomatch hnone), fun hboth => absurd hcover (hboth.2.2 r hr hinode)⟩
  · rw [hplan]
    have hput := h.insert_eq_none_iff (s := s) hv hinv
    change (addNommuRegion s.regionTree (ramfsRegion s req env)).map _ = none ↔ _
    rw [Option.map_eq_none_iff, hput]
    exact ⟨fun hmeet => ⟨hg, hmeet, hall⟩, fun hboth => hboth.2.1⟩

end Request

/-! ### Runs -/

/-- The invariant holds along every run. -/
theorem ramfsInv_of_reach {taskSize : Nat} {L : RamfsLayout} {s : Mem}
    (h : (mmapSystem taskSize).Reach (RamfsCall L) s) : RamfsInv L s := by
  apply System.Reach.invariant _ _ h
  · intro s hempty
    constructor
    · simp [hempty.1]
    · simp [hempty.1]
    · simp [hempty.2]
  · intro s call s' hinv hok hrun
    cases call with
    | mmap mm req env =>
      obtain ⟨file, hreq⟩ := hok
      obtain ⟨r, hr, rfl⟩ := Option.map_eq_some_iff.mp hrun
      exact hinv.doMmapPgoff hreq hr
    | munmap mm start len env =>
      obtain ⟨r, hr, rfl⟩ := Option.map_eq_some_iff.mp hrun
      exact hinv.doMunmap hok.1 hr
    | exit mm => exact hinv.exitMmap hrun

/-- After any sequence of shared mappings, unmappings and exits, a shared mapping of pages of a file
runs into the `BUG()` of `add_nommu_region` exactly when it is granted, some region of the file
starts at its first page, and none holds all its pages. -/
theorem ramfs_mmap_bug_iff (taskSize : Nat) (L : RamfsLayout) (s : Mem)
    (hs : (mmapSystem taskSize).Reach (RamfsCall L) s) (mm : Nat) (req : Request) (env : Answers)
    (file : File) (h : RamfsMmap L req env file) :
    doMmapPgoff taskSize s mm req env = none ↔
      Granted taskSize req env ∧ Collides s req file.inode :=
  (ramfsInv_of_reach hs).mmap_eq_none_iff h mm

/-- One file of two pages, at pages 16 and 17. -/
def twoPageLayout : RamfsLayout where
  base _ := 16
  size i := if i = 0 then 2 else 0
  below i := by split_ifs <;> decide
  apart i j p q := by
    split_ifs <;> omega

theorem firstPages_ok (n : Nat) (h : n ≤ 2) :
    RamfsMmap twoPageLayout (firstBytes (n * 4096)) inPlace mappableFile where
  file_eq := rfl
  shared := rfl
  len_lt := by
    dsimp only [firstBytes]
    omega
  inside := by
    have hn : n = 0 ∨ n = 1 ∨ n = 2 := by omega
    rcases hn with rfl | rfl | rfl <;> decide
  area := by
    have hbase : twoPageLayout.base mappableFile.inode + (firstBytes (n * 4096)).pgoff = 16 := rfl
    rw [hbase]
    decide
  mmap := rfl

/-- The state after the first page was mapped. -/
theorem firstPage_reach : ∃ s, (mmapSystem 4294967295).Reach (RamfsCall twoPageLayout) s ∧
    doMmapPgoff 4294967295 nothingMapped 0 (firstBytes 4096) inPlace = some (65536, s) := by
  have hempty : (mmapSystem 4294967295).Reach (RamfsCall twoPageLayout) nothingMapped :=
    .init ⟨rfl, rfl⟩
  exact ⟨_, .step (a := .mmap 0 (firstBytes 4096) inPlace) hempty
    ⟨mappableFile, firstPages_ok 1 (by decide)⟩ rfl, rfl⟩

/-- The first page is mapped twice: the second mapping shares the region of the first. -/
theorem ramfs_mmap_bug_iff_same_page :
    ∃ s, doMmapPgoff 4294967295 nothingMapped 0 (firstBytes 4096) inPlace = some (65536, s) ∧
      doMmapPgoff 4294967295 s 1 (firstBytes 4096) inPlace ≠ none := by
  obtain ⟨s, hs, hrun⟩ := firstPage_reach
  have hiff := ramfs_mmap_bug_iff 4294967295 twoPageLayout s hs 1 (firstBytes 4096) inPlace
    mappableFile (firstPages_ok 1 (by decide))
  refine ⟨s, hrun, ?_⟩
  rw [Ne, hiff]
  obtain rfl := congrArg Prod.snd (Option.some.inj hrun)
  exact fun h => h.2.2 _ List.mem_cons_self rfl (by decide)

/-- The first page is mapped, then the first two pages: the second region would start where the
first does. -/
theorem ramfs_second_mapping_bug :
    ∃ s, (mmapSystem 4294967295).Reach (RamfsCall twoPageLayout) s ∧
      RamfsMmap twoPageLayout (firstBytes 8192) inPlace mappableFile ∧
      doMmapPgoff 4294967295 s 1 (firstBytes 8192) inPlace = none := by
  obtain ⟨s, hs, hrun⟩ := firstPage_reach
  refine ⟨s, hs, firstPages_ok 2 (by decide), ?_⟩
  obtain rfl := congrArg Prod.snd (Option.some.inj hrun)
  rfl

end LinuxStm32.Mm.Mmap
