import LinuxStm32.Mm.MmapRequest

/-!
# What a request to map does

`plan` says what `do_mmap_pgoff` does with a request before it changes anything but pages: fail,
share a region, make a region, or stop at a `BUG()`. `doMmapPgoff_eq` says that the code carries
out the plan; a failure drops both references to the file and takes back the use of a region. So
a failing request can leave behind pages, and it can take the executable from the process: that
goes when the count of executable mappings, which the request has raised, is back at 0.
-/

namespace LinuxStm32.Mm.Mmap

open Base

/-- What a request is going to do. -/
inductive Plan
  | bug
  | refuse (ret : Int)
  | fail (ret : Int) (pages : Pages)
  | share (flags : VmFlags) (pregion : VmRegion) (mapped : VmRegion → VmRegion)
  | create (pages : Pages) (region : VmRegion) (start stop : Nat)

/-- The plan of a mapping of its own. -/
def Plan.ofSetup : Setup → Plan
  | .bug => .bug
  | .fail ret pages => .fail ret pages
  | .done pages region start stop => .create pages region start stop

/-- The search of a request for a region to share. -/
def Request.search (req : Request) (caps : Caps) (tree : List VmRegion) : Search :=
  searchRegions ((req.file.map (·.inode)).getD 0) req.pgoff (pagesOf req.len) caps.direct tree

/-- The file's `mmap` method is asked to share a region, unless that is a copy. -/
def shareMapped (env : Answers) (pregion : VmRegion) : Int × (VmRegion → VmRegion) :=
  if pregion.vmFlags.mappedCopy then (0, id) else doMmapSharedFile env.mmap

/-- The plan of a request that has its records. -/
def planMapping (s : Mem) (req : Request) (env : Answers) (caps : Caps) (flags : VmFlags) : Plan :=
  if flags.mayShare then
    match req.search caps s.regionTree with
    | .violation => .fail (-22) s.pages
    | .found pregion =>
      if (shareMapped env pregion).1 < 0 then .fail (shareMapped env pregion).1 s.pages
      else .share flags pregion (shareMapped env pregion).2
    | .none =>
      match siteMapping caps env.unmappedArea with
      | .error e => .fail e s.pages
      | .ok (caps, addr) =>
        .ofSetup (setupMapping s.pages req env caps (req.region s flags addr))
  else .ofSetup (setupMapping s.pages req env caps (req.region s flags none))

/-- The plan of a request. -/
def plan (taskSize : Nat) (s : Mem) (req : Request) (env : Answers) : Plan :=
  match validateMmapRequest taskSize req env with
  | .error e => .refuse e
  | .ok caps =>
    if ¬ env.regionMem then .refuse (-12)
    else if ¬ env.vmaMem then .refuse (-12)
    else planMapping s req env caps (determineVmFlags req caps env.traced)

/-- The request passes its checks and gets its records. -/
def Granted (taskSize : Nat) (req : Request) (env : Answers) : Prop :=
  (∃ caps, validateMmapRequest taskSize req env = .ok caps) ∧ env.regionMem ∧ env.vmaMem

/-- The state when a request fails that had its records: an executable mapping comes and goes. -/
def Mem.unmade (s : Mem) (mm : Nat) (req : Request) : Mem :=
  if req.executable then
    { s with exe := if req.file.isSome then addedExeFileVma s.exe (some mm) else s.exe
      }.removedExeFileVma (req.file.map fun _ => mm)
  else s

/-- The state when a region is shared: one more use and one more VMA. -/
def Mem.share (s : Mem) (mm : Nat) (req : Request) (flags : VmFlags) (pregion : VmRegion)
    (mapped : VmRegion → VmRegion) : Mem :=
  let start := pregion.pageAddr req.pgoff
  { (s.takeFile mm req).addFile (-1) req.file with
    regionTree := onRegion pregion.id mapped
      (onRegion pregion.id (fun r => { r with vmUsage := r.vmUsage + 1 }) s.regionTree)
    vmas := req.vma s mm { flags with mappedCopy := flags.mappedCopy || pregion.vmFlags.mappedCopy }
      start (wadd start req.len) pregion.id :: s.vmas
    nextId := s.nextId + 1 }

/-- The state when a region is made. -/
def Mem.create (s : Mem) (mm : Nat) (req : Request) (pages : Pages) (region : VmRegion)
    (start stop : Nat) (tree : List VmRegion) : Mem :=
  { s.takeFile mm req with
    regionTree := tree
    vmas := req.vma s mm region.vmFlags start stop region.id :: s.vmas
    pages
    nextId := s.nextId + 1 }

/-- Carry out a plan. -/
def Plan.run (s : Mem) (mm : Nat) (req : Request) : Plan → Option (Int × Mem)
  | .bug => none
  | .refuse ret => some (ret, s)
  | .fail ret pages => some (ret, { s with pages }.unmade mm req)
  | .share flags pregion mapped =>
    some (pregion.pageAddr req.pgoff, s.share mm req flags pregion mapped)
  | .create pages region start stop =>
    (addNommuRegion s.regionTree region).map fun tree =>
      (start, s.create mm req pages region start stop tree)

/-! ### The code carries out the plan -/

theorem addCount_cancel (fCount : Nat → Int) (file : Option File) :
    addCount (addCount fCount 1 file) (-1) file = fCount := by
  cases file with
  | none => rfl
  | some f =>
    funext k
    by_cases hk : k = f.id
    · subst hk
      simp [addCount]
    · simp [addCount, Function.update_of_ne hk]

/-- A failing request leaves regions and VMAs alone. -/
theorem Mem.unmade_fields (s : Mem) (mm : Nat) (req : Request) :
    (s.unmade mm req).regionTree = s.regionTree ∧ (s.unmade mm req).vmas = s.vmas ∧
      (s.unmade mm req).nextId = s.nextId := by
  unfold unmade
  split <;> exact ⟨rfl, rfl, rfl⟩

/-- The exit `error` drops what was taken. -/
theorem errorExit_eq (s : Mem) (mm : Nat) (req : Request) (ret : Int) (tree : List VmRegion)
    (pages : Pages) :
    errorExit { s.takeFile mm req with regionTree := tree, pages := pages } mm req ret =
      (ret, { s with regionTree := tree, pages := pages }.unmade mm req) := by
  cases hexe : req.executable <;>
    simp [errorExit, Mem.takeFile, Mem.unmade, Mem.addFile, hexe, addCount_cancel]

/-- The use of a region is taken back. -/
theorem onRegion_cancel (id : Nat) (tree : List VmRegion) :
    onRegion id (fun r => { r with vmUsage := r.vmUsage - 1 })
      (onRegion id (fun r => { r with vmUsage := r.vmUsage + 1 }) tree) = tree := by
  unfold onRegion
  rw [List.map_map]
  conv_rhs => rw [← List.map_id tree]
  apply List.map_congr_left
  intro r _
  by_cases h : r.id = id
  · subst h
    simp
  · simp [h]

theorem shareRegion_eq (s : Mem) (mm : Nat) (req : Request) (env : Answers) (flags : VmFlags)
    (pregion : VmRegion) :
    shareRegion (s.takeFile mm req) mm req env flags pregion =
      if (shareMapped env pregion).1 < 0 then ((shareMapped env pregion).1, s.unmade mm req)
      else (pregion.pageAddr req.pgoff,
        s.share mm req flags pregion (shareMapped env pregion).2) := by
  change (if (shareMapped env pregion).1 < 0 then
    errorExit { s.takeFile mm req with regionTree := onRegion pregion.id _ (onRegion _ _ _) } mm req
      (shareMapped env pregion).1 else _) = _
  rw [onRegion_cancel]
  split
  · exact errorExit_eq s mm req _ s.regionTree s.pages
  · rfl

theorem newMapping_eq (s : Mem) (mm : Nat) (req : Request) (env : Answers) (flags : VmFlags)
    (caps : Caps) (addr : Option Nat) :
    newMapping (s.takeFile mm req) mm req env flags caps addr =
      (Plan.ofSetup (setupMapping s.pages req env caps (req.region s flags addr))).run
        s mm req := by
  have hregion : req.region (s.takeFile mm req) flags addr = req.region s flags addr := by
    cases addr <;> rfl
  unfold newMapping
  rw [hregion]
  change (match setupMapping s.pages req env caps (req.region s flags addr) with
    | .bug => none
    | .fail ret pages => _
    | .done pages region start stop => _) = _
  cases setupMapping s.pages req env caps (req.region s flags addr) with
  | bug => rfl
  | fail ret pages => exact congrArg some (errorExit_eq s mm req ret s.regionTree pages)
  | done pages region start stop =>
    change (addNommuRegion s.regionTree region).bind _ = (addNommuRegion s.regionTree region).map _
    cases addNommuRegion s.regionTree region <;> rfl

theorem mapRequest_eq (s : Mem) (mm : Nat) (req : Request) (env : Answers) (caps : Caps)
    (flags : VmFlags) :
    mapRequest (s.takeFile mm req) mm req env caps flags =
      (planMapping s req env caps flags).run s mm req := by
  have herror (e : Int) := congrArg some (errorExit_eq s mm req e s.regionTree s.pages)
  unfold mapRequest planMapping
  by_cases hshare : flags.mayShare = true
  · rw [if_pos hshare, if_pos hshare]
    change (match req.search caps s.regionTree with
      | .violation => _
      | .found pregion => _
      | .none => _) = _
    cases req.search caps s.regionTree with
    | violation => exact herror _
    | found pregion =>
      dsimp only
      rw [shareRegion_eq]
      split <;> rfl
    | none =>
      dsimp only
      cases siteMapping caps env.unmappedArea with
      | error e => exact herror e
      | ok sited => exact newMapping_eq s mm req env _ sited.1 sited.2
  · rw [if_neg hshare, if_neg hshare]
    exact newMapping_eq s mm req env _ caps none

/-- `do_mmap_pgoff` carries out the plan. -/
theorem doMmapPgoff_eq (taskSize : Nat) (s : Mem) (mm : Nat) (req : Request) (env : Answers) :
    doMmapPgoff taskSize s mm req env = (plan taskSize s req env).run s mm req := by
  unfold doMmapPgoff plan
  cases validateMmapRequest taskSize req env with
  | error e => rfl
  | ok caps =>
    dsimp only
    split_ifs
    · exact mapRequest_eq s mm req env caps _
    · rfl
    · rfl

/-! ### How plans come about -/

section Plans

variable {taskSize : Nat} {s : Mem} {req : Request} {env : Answers}

/-- A request that is not granted is refused. -/
theorem plan_of_not_granted (h : ¬ Granted taskSize req env) :
    ∃ e, plan taskSize s req env = .refuse e := by
  unfold plan
  cases hv : validateMmapRequest taskSize req env with
  | error e => exact ⟨e, rfl⟩
  | ok caps =>
    dsimp only
    split_ifs with hregion hvma
    · exact absurd ⟨⟨caps, hv⟩, hregion, hvma⟩ h
    · exact ⟨_, rfl⟩
    · exact ⟨_, rfl⟩

/-- How the plan of a request comes about that has its records: it fails where it could have shared,
it shares what the search found, or it sets up a mapping of its own. -/
inductive PlanCase (s : Mem) (req : Request) (env : Answers) (caps : Caps) (flags : VmFlags)
    (p : Plan) : Prop
  | early (e : Int) (hp : p = .fail e s.pages) (hshare : flags.mayShare = true)
      (hno : req.search caps s.regionTree = .none →
        ∀ sited, siteMapping caps env.unmappedArea ≠ .ok sited)
  | share (pregion : VmRegion) (hp : p = .share flags pregion (shareMapped env pregion).2)
      (hshare : flags.mayShare = true) (hfound : req.search caps s.regionTree = .found pregion)
  | setup (caps' : Caps) (addr : Option Nat)
      (hp : p = .ofSetup (setupMapping s.pages req env caps' (req.region s flags addr)))
      (hsite : flags.mayShare = true ∧ req.search caps s.regionTree = .none ∧
          siteMapping caps env.unmappedArea = .ok (caps', addr) ∨
        flags.mayShare = false ∧ caps' = caps ∧ addr = none)

theorem planMapping_case (caps : Caps) (flags : VmFlags) :
    PlanCase s req env caps flags (planMapping s req env caps flags) := by
  unfold planMapping
  split
  next hshare =>
    cases hsearch : req.search caps s.regionTree with
    | violation => exact .early _ rfl hshare (by rw [hsearch]; nofun)
    | found pregion =>
      dsimp only
      split
      · exact .early _ rfl hshare (by rw [hsearch]; nofun)
      · exact .share pregion rfl hshare hsearch
    | none =>
      cases hsite : siteMapping caps env.unmappedArea with
      | error e => exact .early e rfl hshare (by rw [hsite]; nofun)
      | ok sited => exact .setup sited.1 sited.2 rfl (.inl ⟨hshare, hsearch, hsite⟩)
  next hshare => exact .setup caps none rfl (.inr ⟨eq_false_of_ne_true hshare, rfl, rfl⟩)

/-- A plan that is no refusal is made for a request that is granted. -/
theorem plan_case (h : ∀ e, plan taskSize s req env ≠ .refuse e) :
    Granted taskSize req env ∧ ∃ caps, validateMmapRequest taskSize req env = .ok caps ∧
      PlanCase s req env caps (determineVmFlags req caps env.traced) (plan taskSize s req env) := by
  by_cases hg : Granted taskSize req env
  · obtain ⟨⟨caps, hv⟩, hregion, hvma⟩ := id hg
    refine ⟨hg, caps, hv, ?_⟩
    rw [plan, hv]
    simp only [hregion, hvma, not_true_eq_false, if_false]
    exact planMapping_case caps _
  · obtain ⟨e, he⟩ := plan_of_not_granted (s := s) hg
    exact absurd he (h e)

/-- A region is shared that the search found. -/
theorem plan_share {flags : VmFlags} {pregion : VmRegion} {mapped : VmRegion → VmRegion}
    (h : plan taskSize s req env = .share flags pregion mapped) :
    ∃ caps, validateMmapRequest taskSize req env = .ok caps ∧
      (determineVmFlags req caps env.traced).mayShare = true ∧
      req.search caps s.regionTree = .found pregion ∧ mapped = (shareMapped env pregion).2 := by
  obtain ⟨-, caps, hv, hcase⟩ := plan_case (by rw [h]; nofun)
  rw [h] at hcase
  rcases hcase with ⟨e, hp, -⟩ | ⟨q, hp, hshare, hfound⟩ | ⟨caps', addr, hp, -⟩
  · cases hp
  · cases hp
    exact ⟨caps, hv, hshare, hfound, rfl⟩
  · cases hset : setupMapping s.pages req env caps' _ <;> rw [hset] at hp <;> cases hp

/-- A region is made from what setting up the mapping gives. -/
theorem plan_create {pages : Pages} {region : VmRegion} {start stop : Nat}
    (h : plan taskSize s req env = .create pages region start stop) :
    ∃ caps caps' addr flags, validateMmapRequest taskSize req env = .ok caps ∧
      flags = determineVmFlags req caps env.traced ∧
      (flags.mayShare = true ∧ siteMapping caps env.unmappedArea = .ok (caps', addr) ∨
        flags.mayShare = false ∧ caps' = caps ∧ addr = none) ∧
      setupMapping s.pages req env caps' (req.region s flags addr) =
        .done pages region start stop := by
  obtain ⟨-, caps, hv, hcase⟩ := plan_case (by rw [h]; nofun)
  rw [h] at hcase
  rcases hcase with ⟨e, hp, -⟩ | ⟨q, hp, -⟩ | ⟨caps', addr, hp, hsite⟩
  · cases hp
  · cases hp
  · refine ⟨caps, caps', addr, _, hv, rfl, hsite.imp (fun hs => ⟨hs.1, hs.2.2⟩) id, ?_⟩
    cases hset : setupMapping s.pages req env caps' _ <;> rw [hset] at hp <;> cases hp
    rfl

end Plans

/-! ### Regions that stay in place -/

/-- Two records of a region that differ in its uses and its top only. -/
structure SameShape (r r' : VmRegion) : Prop where
  vmStart : r'.vmStart = r.vmStart
  vmEnd : r'.vmEnd = r.vmEnd
  vmPgoff : r'.vmPgoff = r.vmPgoff
  vmFlags : r'.vmFlags = r.vmFlags
  vmFile : r'.vmFile = r.vmFile

theorem SameShape.rpglen {r r' : VmRegion} (h : SameShape r r') : r'.rpglen = r.rpglen := by
  rw [VmRegion.rpglen, VmRegion.rpglen, h.vmStart, h.vmEnd]

/-- Asking the file's `mmap` method leaves a region in place. -/
theorem shareMapped_shape (env : Answers) (pregion r : VmRegion) :
    SameShape r ((shareMapped env pregion).2 r) := by
  unfold shareMapped doMmapSharedFile
  split_ifs <;> exact ⟨rfl, rfl, rfl, rfl, rfl⟩

/-- It keeps its name and its uses, too, and its pages do not end before its bytes do. -/
theorem shareMapped_keeps (env : Answers) (pregion r : VmRegion) :
    ((shareMapped env pregion).2 r).id = r.id ∧
      ((shareMapped env pregion).2 r).vmUsage = r.vmUsage ∧
      (r.vmEnd ≤ r.vmTop → r.vmEnd ≤ ((shareMapped env pregion).2 r).vmTop) := by
  unfold shareMapped doMmapSharedFile
  split_ifs
  · exact ⟨rfl, rfl, id⟩
  · exact ⟨rfl, rfl, fun _ => Nat.le_refl _⟩
  · exact ⟨rfl, rfl, id⟩
  · exact ⟨rfl, rfl, id⟩

/-! ### Dropping a VMA -/

/-- The tree after a use of a region is dropped. -/
def treeAfterPut (tree : List VmRegion) (region : VmRegion) : List VmRegion :=
  if region.vmUsage - 1 = 0 then
    if region.vmStart < region.vmTop then tree.erase region else tree
  else onRegion region.id (fun r => { r with vmUsage := r.vmUsage - 1 }) tree

theorem putNommuRegion_fields (s : Mem) (region : VmRegion) :
    (putNommuRegion s region).regionTree = treeAfterPut s.regionTree region ∧
      (putNommuRegion s region).vmas = s.vmas ∧ (putNommuRegion s region).nextId = s.nextId := by
  unfold putNommuRegion treeAfterPut destroyRegion
  by_cases hlast : region.vmUsage - 1 = 0
  · rw [if_pos hlast, if_pos hlast]
    cases region.vmFlags.mappedCopy <;> exact ⟨rfl, rfl, rfl⟩
  · rw [if_neg hlast, if_neg hlast]
    exact ⟨rfl, rfl, rfl⟩

/-- What dropping a VMA does to regions and VMAs. -/
theorem deleteVma_fields {s s' : Mem} {vma : Vma} (h : deleteVma s vma = some s') :
    ∃ region, s.regionOf vma = some region ∧
      s'.regionTree = treeAfterPut s.regionTree region ∧ s'.vmas = s.vmas.erase vma ∧
      s'.nextId = s.nextId := by
  obtain ⟨region, hregion, rfl⟩ := Option.map_eq_some_iff.mp h
  refine ⟨region, hregion, ?_⟩
  dsimp only
  split <;> exact putNommuRegion_fields _ region

end LinuxStm32.Mm.Mmap
