import LinuxStm32.Mm.MmapPlan

/-!
# A request to map that fails

By the plan of a request, a failure changes nothing but pages and executables. Pages are only
obtained for a private copy, `mm/nommu.c:1084–1164`. If reading the file into the copy fails, the
pages up to `vm_end` are given back; those between `vm_end` and `vm_top`, which are there when the
block was not trimmed, are not. An executable mapping is counted when it gets its records and
uncounted when it fails; if it is the process's first, that releases the executable, and without a
file it is counted nowhere but uncounted through a null `vm_mm`.
-/

namespace LinuxStm32.Mm.Mmap

open Base

/-- The mapping is to be a copy: it is not shared with the file, and the file does not provide the
memory. -/
def Copies (req : Request) (env : Answers) (caps : Caps) (flags : VmFlags) : Prop :=
  ¬ (req.file.isSome ∧ flags.shared) ∧ ¬ (caps.direct ∧ env.mmap ≠ enosys)

/-- The capabilities and flags with which a request comes to setting up a mapping of its own, if it
does. -/
def setupCaps (taskSize : Nat) (s : Mem) (req : Request) (env : Answers) :
    Option (Caps × VmFlags) :=
  match validateMmapRequest taskSize req env with
  | .error _ => none
  | .ok caps =>
    let flags := determineVmFlags req caps env.traced
    if ¬ env.regionMem then none
    else if ¬ env.vmaMem then none
    else if flags.mayShare then
      match req.search caps s.regionTree, siteMapping caps env.unmappedArea with
      | .none, .ok (caps, _) => some (caps, flags)
      | _, _ => none
    else some (caps, flags)

/-- More pages are kept for a copy than the request has. -/
def KeepsExcess (req : Request) (env : Answers) : Prop :=
  pageAlign req.len / pageSize < keptPages (pageAlign req.len) env.trim

/-- Reading a file into a copy fails, and the copy has more pages than the request. -/
def CopyFailsUntrimmed (taskSize : Nat) (s : Mem) (req : Request) (env : Answers) : Prop :=
  (∃ caps flags, setupCaps taskSize s req env = some (caps, flags) ∧ Copies req env caps flags) ∧
    req.file.isSome ∧ env.read < 0 ∧ env.block ≠ none ∧ KeepsExcess req env

/-- The page allocator hands out pages that are free, below page `2 ^ 20`, where the address
space ends. -/
def BlockFree (s : Mem) (req : Request) (env : Answers) : Prop :=
  ∀ base, env.block = some base →
    base + 2 ^ getOrder (pageAlign req.len) < 1048576 ∧
      ∀ k, base ≤ k → k < base + 2 ^ getOrder (pageAlign req.len) → s.pages.pageCount k = none

/-- A failing request with `MAP_EXECUTABLE` does not leave the counts as they were: it is anonymous,
or it is the first of a process that has an executable. -/
def ReleasesExe (s : Mem) (mm : Nat) (req : Request) : Prop :=
  req.executable ∧ (req.file = none ∨
    (s.exe (some mm)).numExeFileVmas = 0 ∧ (s.exe (some mm)).exeFile.isSome)

/-! ### Pages -/

section CopyPages

variable {p : Pages} {rlen base : Nat} {trim : Int}

theorem Pages.mmapPages_eq (h0 : 0 < rlen) (h : rlen < 4294967296) (hal : rlen % 4096 = 0) :
    p.mmapPages rlen base trim = (⟨fun k =>
        if base ≤ k ∧ k < base + keptPages rlen trim then some 1
        else if base + keptPages rlen trim ≤ k ∧ k < base + 2 ^ getOrder rlen then none
        else p.pageCount k,
      p.mmapPagesAllocated + (keptPages rlen trim : Nat), p.badFree⟩, keptPages rlen trim) := by
  rw [Pages.mmapPages, mmapPages_spec h0 h hal]
  rfl

/-- The pages of the request are given back; those behind them stay. -/
theorem Pages.freed_copy (h0 : 0 < rlen) (h : rlen < 4294967296) (hal : rlen % 4096 = 0) :
    ((p.mmapPages rlen base trim).1.freePageSeries (base * 4096) (base * 4096 + rlen)) =
      ⟨fun k =>
        if base ≤ k ∧ k < base + rlen / 4096 then none
        else if base ≤ k ∧ k < base + keptPages rlen trim then some 1
        else if base + keptPages rlen trim ≤ k ∧ k < base + 2 ^ getOrder rlen then none
        else p.pageCount k,
      p.mmapPagesAllocated + (keptPages rlen trim : Nat) - (rlen / 4096 : Nat), p.badFree⟩ := by
  obtain ⟨-, hkept, -⟩ := keptPages_bounds h0 h hal trim
  have hrange : ∀ k, (base * 4096 ≤ k * 4096 ∧ k * 4096 < base * 4096 + rlen) ↔
      base ≤ k ∧ k < base + rlen / 4096 := by
    intro k
    omega
  rw [Pages.mmapPages_eq h0 h hal, Pages.freePageSeries, freePageSeries_held]
  · simp only [Pages.ofNommu, Pages.toNommu, hrange, Nat.add_sub_cancel_left]
  · omega
  · omega
  · omega
  · intro k h1 h2
    exact if_pos (by omega)

/-- With a free block, nothing is left if and only if no page was kept behind the request's. -/
theorem Pages.freed_copy_eq_iff (h0 : 0 < rlen) (h : rlen < 4294967296) (hal : rlen % 4096 = 0)
    (hfree : ∀ k, base ≤ k → k < base + 2 ^ getOrder rlen → p.pageCount k = none) :
    (p.mmapPages rlen base trim).1.freePageSeries (base * 4096) (base * 4096 + rlen) = p ↔
      ¬ rlen / pageSize < keptPages rlen trim := by
  obtain ⟨-, hkept, hle⟩ := keptPages_bounds h0 h hal trim
  have hpoint : rlen / pageSize = rlen / 4096 := rfl
  rw [Pages.freed_copy h0 h hal, hpoint]
  constructor
  · intro heq hlt
    have hcount := congrArg Pages.mmapPagesAllocated heq
    dsimp only at hcount
    omega
  · intro hno
    have hall : keptPages rlen trim = rlen / 4096 := by omega
    rw [hall]
    obtain ⟨count, allocated, bad⟩ := p
    simp only [Pages.mk.injEq, and_true]
    constructor
    · funext k
      by_cases hin : base ≤ k ∧ k < base + 2 ^ getOrder rlen
      · have hk : count k = none := hfree k hin.1 hin.2
        split_ifs <;> first | exact hk.symm | omega
      · split_ifs <;> first | rfl | omega
    · omega

end CopyPages

/-! ### The request -/

/-- How setting up a mapping fails: no pages are left, unless a copy that keeps more pages than
the request could not be filled. -/
theorem setupMapping_fail {pages pages' : Pages} {req : Request} {env : Answers} {caps : Caps}
    {region : VmRegion} {ret : Int} (hlen : 0 < pageAlign req.len)
    (hblock : ∀ base, env.block = some base →
      base + 2 ^ getOrder (pageAlign req.len) < 1048576 ∧
        ∀ k, base ≤ k → k < base + 2 ^ getOrder (pageAlign req.len) → pages.pageCount k = none)
    (h : setupMapping pages req env caps region = .fail ret pages') :
    pages' = pages ↔ ¬ (Copies req env caps region.vmFlags ∧ req.file.isSome ∧ env.read < 0 ∧
      env.block ≠ none ∧ KeepsExcess req env) := by
  have hmapped : ∀ mapped, setupMapped pages region mapped = .fail ret pages' → pages' = pages := by
    intro mapped hm
    unfold setupMapped at hm
    split_ifs at hm
    exact (Setup.fail.inj hm).2.symm
  unfold setupMapping at h
  split_ifs at h with hshared
  · exact iff_of_true (hmapped _ h) fun hc => hc.1.1 hshared
  unfold doMmapPrivate at h
  split_ifs at h with hdirect
  · exact iff_of_true (hmapped _ h) fun hc => hc.1.2 hdirect
  unfold copyMapping at h
  cases hb : env.block with
  | none =>
    rw [hb] at h
    exact iff_of_true (Setup.fail.inj h).2.symm fun hc => hc.2.2.2.1 rfl
  | some base =>
    rw [hb] at h
    dsimp only at h
    split_ifs at h with hread
    obtain ⟨hram, hfree⟩ := hblock base hb
    obtain ⟨hstart, hend⟩ := block_addresses hram (le_getOrder hlen (pageAlign_lt req.len))
    have hpages := (Setup.fail.inj h).2
    rw [hstart, hend] at hpages
    have hiff := @Pages.freed_copy_eq_iff pages (pageAlign req.len) base env.trim hlen
      (pageAlign_lt req.len) (pageAlign_aligned req.len) hfree
    rw [← hpages, hiff]
    exact not_congr ⟨fun hlt => ⟨⟨hshared, hdirect⟩, hread.1, hread.2, by simp, hlt⟩,
      fun hc => hc.2.2.2.2⟩

theorem setupCaps_eq {taskSize : Nat} {req : Request} {env : Answers} {caps : Caps}
    (hg : Granted taskSize req env) (hv : validateMmapRequest taskSize req env = .ok caps)
    (s : Mem) :
    setupCaps taskSize s req env =
      if (determineVmFlags req caps env.traced).mayShare then
        match req.search caps s.regionTree, siteMapping caps env.unmappedArea with
        | .none, .ok (caps', _) => some (caps', determineVmFlags req caps env.traced)
        | _, _ => none
      else some (caps, determineVmFlags req caps env.traced) := by
  simp [setupCaps, hv, hg.2.1, hg.2.2]

/-- Only a request that is granted comes to setting up a mapping. -/
theorem granted_of_setupCaps {taskSize : Nat} {s : Mem} {req : Request} {env : Answers}
    (h : setupCaps taskSize s req env ≠ none) : Granted taskSize req env := by
  by_contra hg
  apply h
  unfold setupCaps
  cases hv : validateMmapRequest taskSize req env with
  | error e => rfl
  | ok caps =>
    dsimp only
    split_ifs with hregion hvma
    · exact absurd ⟨⟨caps, hv⟩, hregion, hvma⟩ hg
    · exact absurd ⟨⟨caps, hv⟩, hregion, hvma⟩ hg
    · rfl
    · rfl

/-- How a plan to fail comes about. -/
theorem plan_fail {taskSize : Nat} {s : Mem} {req : Request} {env : Answers} {ret : Int}
    {pages : Pages} (hblock : BlockFree s req env) (h : plan taskSize s req env = .fail ret pages) :
    pages = s.pages ↔ ¬ CopyFailsUntrimmed taskSize s req env := by
  obtain ⟨hg, caps, hv, hcase⟩ := plan_case (by rw [h]; nofun)
  have hcaps := setupCaps_eq hg hv s
  rw [h] at hcase
  unfold CopyFailsUntrimmed
  generalize determineVmFlags req caps env.traced = flags at hcase hcaps
  rcases hcase with ⟨e, hp, hshare, hno⟩ | ⟨q, hp, -⟩ | ⟨caps', addr, hp, hsite⟩
  · -- it did not come to setting up a mapping
    rw [if_pos hshare] at hcaps
    refine iff_of_true (Plan.fail.inj hp).2 ?_
    rintro ⟨⟨caps', flags', hsome, -⟩, -⟩
    rw [hsome] at hcaps
    split at hcaps
    next hnone hok => exact hno hnone _ hok
    next => cases hcaps
  · cases hp
  · have hsome : setupCaps taskSize s req env = some (caps', flags) := by
      rw [hcaps]
      rcases hsite with ⟨hshare, hsearch, hok⟩ | ⟨hshare, rfl, -⟩
      · rw [if_pos hshare, hsearch, hok]
      · rw [if_neg (by simp [hshare])]
    have hflags : (req.region s flags addr).vmFlags = flags := by cases addr <;> rfl
    cases hset : setupMapping s.pages req env caps' (req.region s flags addr) with
    | bug => rw [hset] at hp; cases hp
    | done p r a b => rw [hset] at hp; cases hp
    | fail e p =>
      rw [hset] at hp
      obtain ⟨rfl, rfl⟩ := Plan.fail.inj hp
      rw [setupMapping_fail (validateMmapRequest_len hv) hblock hset, hflags, hsome]
      simp

/-! ### Executables -/

/-- What a failing request leaves, if it had its records. -/
theorem Mem.unmade_eq_iff (s : Mem) (mm : Nat) (req : Request) (pages : Pages) :
    { s with pages }.unmade mm req = s ↔ pages = s.pages ∧ ¬ ReleasesExe s mm req := by
  have hpages : { s with pages } = s ↔ pages = s.pages :=
    ⟨congrArg Mem.pages, fun h => by rw [h]⟩
  unfold unmade ReleasesExe
  cases req.executable with
  | false => simpa using hpages
  | true =>
  cases req.file with
  | none =>
    refine iff_of_false (fun h => ?_) (by simp)
    have hnum := congrArg (fun s : Mem => (s.exe none).numExeFileVmas) h
    simp only [if_true, removedExeFileVma, Option.map_none, Function.update_self] at hnum
    change (s.exe none).numExeFileVmas - 1 = _ at hnum
    bv_omega
  | some file =>
    cases hexe : s.exe (some mm) with
    | mk f n =>
    simp only [if_true, Option.isSome_some, Option.map_some, removedExeFileVma, addedExeFileVma,
      Function.update_self, Function.update_idem, hexe, BitVec.add_sub_cancel, reduceCtorEq,
      false_or, true_and]
    by_cases hlast : n = 0 ∧ f.isSome
    · refine iff_of_false (fun h => ?_) (by simp [hlast])
      have hgone := congrArg (fun s : Mem => (s.exe (some mm)).exeFile) h
      simp only [Function.update_self, if_pos hlast.1, hexe] at hgone
      simp [← hgone] at hlast
    · -- there is no executable to release, or another mapping of it
      have hnone : n = 0 → f = none := by simpa using hlast
      have hcount : n = 0 → addCount s.fCount (-1) f = s.fCount := fun h => by rw [hnone h]; rfl
      rw [ite_eq_right_iff.mpr fun h => (hnone h).symm, ite_eq_right_iff.mpr hcount, ← hexe,
        Function.update_eq_self, and_iff_left hlast]
      exact hpages

/-- A refusal is not granted. -/
theorem not_granted_of_refuse {taskSize : Nat} {s : Mem} {req : Request} {env : Answers} {e : Int}
    (h : plan taskSize s req env = .refuse e) : ¬ Granted taskSize req env := by
  rintro ⟨⟨caps, hv⟩, hregion, hvma⟩
  simp only [plan, hv, hregion, hvma, not_true_eq_false, if_false] at h
  have hcase := @planMapping_case s req env caps (determineVmFlags req caps env.traced)
  rw [h] at hcase
  rcases hcase with ⟨e, hp, -⟩ | ⟨q, hp, -⟩ | ⟨caps', addr, hp, -⟩
  · cases hp
  · cases hp
  · cases hset : setupMapping s.pages req env caps' _ <;> rw [hset] at hp <;> cases hp

/-- A request that returns an error leaves the regions with their uses, the VMAs, the pages, their
number, the reference counts of files and the executables as they were if and only if it was not
the reading of a file into a copy with more pages than the request that failed, and no executable
mapping that had its records and was anonymous, or the first of a process with an executable. -/
theorem failing_mmap_traceless_iff (taskSize : Nat) (s : Mem) (mm : Nat) (req : Request)
    (env : Answers) (hblock : BlockFree s req env) (ret : Int) (s' : Mem)
    (hrun : doMmapPgoff taskSize s mm req env = some (ret, s')) (hret : ret < 0) :
    s' = s ↔ ¬ CopyFailsUntrimmed taskSize s req env ∧
      ¬ (Granted taskSize req env ∧ ReleasesExe s mm req) := by
  rw [doMmapPgoff_eq] at hrun
  cases hplan : plan taskSize s req env with
  | bug =>
    rw [hplan] at hrun
    cases hrun
  | refuse e =>
    rw [hplan] at hrun
    obtain ⟨-, rfl⟩ := Prod.mk.inj (Option.some.inj hrun)
    have hno := not_granted_of_refuse hplan
    refine iff_of_true rfl ⟨?_, fun h => hno h.1⟩
    rintro ⟨⟨caps, flags, hcaps, -⟩, -⟩
    exact hno (granted_of_setupCaps (by rw [hcaps]; nofun))
  | share flags pregion mapped =>
    rw [hplan] at hrun
    obtain ⟨rfl, -⟩ := Prod.mk.inj (Option.some.inj hrun)
    omega
  | create pages region start stop =>
    rw [hplan] at hrun
    obtain ⟨tree, -, htree⟩ := Option.map_eq_some_iff.mp hrun
    obtain ⟨rfl, -⟩ := Prod.mk.inj htree
    omega
  | fail e pages =>
    rw [hplan] at hrun
    obtain ⟨rfl, rfl⟩ := Prod.mk.inj (Option.some.inj hrun)
    have hg := (plan_case (by rw [hplan]; nofun)).1
    rw [← plan_fail hblock hplan, and_iff_right hg]
    exact s.unmade_eq_iff mm req pages

/-! ### A file on a disk -/

/-- A file that can be read but not mapped in place. -/
def diskFile : File :=
  ⟨0, 7, .reg, .none, true, false, true, true, false, false, false, false⟩

/-- A private read-only mapping of its first three pages, as part of the executable. -/
def threePages : Request := ⟨some diskFile, 12288, ⟨true, false, false⟩, false, true, .priv, 0⟩

/-- Memory for everything, a block of pages from page 16 on, and a failing read. -/
def failingRead (trim : Int) : Answers := ⟨0, false, true, true, 0, 0, some 16, -5, trim⟩

/-- A process that executes the file and has `n` mappings of it. -/
def executing (n : BitVec 32) : Mem := { nothingMapped with exe := fun _ => ⟨some diskFile, n⟩ }

/-- With `nr_trim_pages` 1 the fourth page of the block was given back before, and with another
mapping of the executable nothing is left. -/
theorem failing_mmap_traceless_trimmed :
    doMmapPgoff 4294967295 (executing 1) 0 threePages (failingRead 1) = some (-5, executing 1) := by
  obtain ⟨s', hrun⟩ : ∃ s', doMmapPgoff 4294967295 (executing 1) 0 threePages (failingRead 1) =
      some (-5, s') := ⟨_, rfl⟩
  have hblock : BlockFree (executing 1) threePages (failingRead 1) := by
    intro base hbase
    obtain rfl := Option.some.inj hbase
    exact ⟨by decide, fun _ _ _ => rfl⟩
  have hiff := failing_mmap_traceless_iff 4294967295 (executing 1) 0 threePages (failingRead 1)
    hblock (-5) s' hrun (by decide)
  have htrimmed : ¬ KeepsExcess threePages (failingRead 1) := by
    unfold KeepsExcess
    decide
  have hexe : ¬ ReleasesExe (executing 1) 0 threePages := by
    rintro ⟨-, h | h⟩
    · cases h
    · exact absurd h.1 (by decide)
  rw [hrun, hiff.mpr ⟨fun h => htrimmed h.2.2.2.2, fun h => hexe h.2⟩]

/-- Without trimming the fourth page stays allocated, and no region owns it. Without memory for the
pages, the first mapping of the executable takes it from the process and drops its reference. -/
theorem failing_mmap_leaves_page :
    (∃ s', doMmapPgoff 4294967295 (executing 1) 0 threePages (failingRead 0) = some (-5, s') ∧
      s'.regionTree = [] ∧ s'.pages.pageCount 19 = some 1 ∧
      (executing 1).pages.pageCount 19 = none ∧ s'.pages.mmapPagesAllocated = 1 ∧
      (executing 1).pages.mmapPagesAllocated = 0) ∧
    ∃ s', doMmapPgoff 4294967295 (executing 0) 0 threePages
        { failingRead 1 with block := none } = some (-12, s') ∧
      s'.fCount 0 = 0 ∧ (executing 0).fCount 0 = 1 ∧ (s'.exe (some 0)).exeFile = none :=
  ⟨⟨_, rfl, rfl, by decide, rfl, by decide, rfl⟩, _, rfl, by decide, rfl, rfl⟩

end LinuxStm32.Mm.Mmap
