import LinuxStm32.Base.System
import LinuxStm32.Mm.NommuPages

/-!
# Mapping files and memory

Model of `do_mmap_pgoff` with all that it calls in `mm/nommu.c:489-1417`, of `do_munmap` and of
`exit_mmap`. Whatever the code asks others for is an answer in the request's surroundings: memory
for records, pages, the methods of a file, the security module. The region tree is the list of its
regions in order; the VMAs of all processes are in one list. `none` is a `BUG()`. A process has the
file it executes and the count of its `VM_EXECUTABLE` mappings, `fs/proc/base.c:1339-1352`. Left
out: `total_vm`, the flushing of caches and the contents of memory.

This is the model of files and of sharing. The pages are those of `Mm.Nommu`, which follows the
anonymous calls and `do_mremap` word by word. Which VMA `do_munmap` finds is an answer here;
`Mm.VmaTree` follows the lookups in the tree in memory.
-/

namespace LinuxStm32.Mm.Mmap

open Base

/-! ### Files and requests -/

/-- The `BDI_CAP_` bits; `other` says that one is set that is not about mapping. -/
structure Caps where
  other : Bool
  copy : Bool
  direct : Bool
  read : Bool
  write : Bool
  exec : Bool
  deriving DecidableEq, Repr

/-- No bit is set. -/
def Caps.none : Caps := ⟨false, false, false, false, false, false⟩

/-- `S_IFREG`, `S_IFBLK`, `S_IFCHR` or something else. -/
inductive FileKind
  | reg
  | blk
  | chr
  | other
  deriving DecidableEq, Repr

/-- What is looked at in a `struct file` and its inode: the backing device's capabilities, the
methods it has, how it was opened, and whether its mount forbids execution. -/
structure File where
  id : Nat
  inode : Nat
  kind : FileKind
  bdi : Caps
  hasMmap : Bool
  hasGetUnmappedArea : Bool
  hasRead : Bool
  modeRead : Bool
  modeWrite : Bool
  append : Bool
  locked : Bool
  noexec : Bool
  deriving DecidableEq, Repr

/-- `PROT_READ`, `PROT_WRITE` and `PROT_EXEC`. -/
structure Prot where
  read : Bool
  write : Bool
  exec : Bool
  deriving DecidableEq, Repr

/-- The bits `MAP_TYPE` of the flags. -/
inductive MapType
  | shared
  | priv
  | other
  deriving DecidableEq, Repr

/-- The arguments of `do_mmap_pgoff`; `fixed` and `executable` are `MAP_FIXED` and
`MAP_EXECUTABLE`. -/
structure Request where
  file : Option File
  len : Nat
  prot : Prot
  fixed : Bool
  executable : Bool
  mapType : MapType
  pgoff : Nat
  deriving DecidableEq, Repr

/-- What a request gets from its surroundings: the verdict of the security module, whether the
process is traced, memory for the two records, the results of the file's methods, a block of pages
and the setting `nr_trim_pages`. -/
structure Answers where
  security : Int
  traced : Bool
  regionMem : Bool
  vmaMem : Bool
  unmappedArea : Nat
  mmap : Int
  block : Option Nat
  read : Int
  trim : Int
  deriving DecidableEq, Repr

/-! ### `validate_mmap_request`, `mm/nommu.c:817` -/

/-- Lines 829-851. -/
def validateSize (taskSize : Nat) (req : Request) : Except Int Unit :=
  if req.fixed then .error (-22)
  else if req.mapType = .other then .error (-22)
  else if req.len = 0 then .error (-22)
  else if pageAlign req.len = 0 ∨ taskSize < pageAlign req.len then .error (-12)
  else if wadd req.pgoff (pageAlign req.len / pageSize) < req.pgoff then .error (-75)
  else .ok ()

/-- Lines 869-892: what the backing device can do, or the defaults. -/
def deviceCaps (file : File) : Except Int Caps :=
  if file.bdi ≠ Caps.none then .ok file.bdi
  else
    match file.kind with
    | .reg | .blk => .ok { Caps.none with copy := true }
    | .chr => .ok { Caps.none with direct := true, read := true, write := true }
    | .other => .error (-22)

/-- Lines 905-931. -/
def validateShared (file : File) (prot : Prot) (caps : Caps) : Except Int Caps :=
  if prot.write ∧ ¬ file.modeWrite then .error (-13)
  else if file.append ∧ file.modeWrite then .error (-13)
  else if file.locked then .error (-11)
  else if ¬ caps.direct then .error (-19)
  else if (prot.read ∧ ¬ caps.read) ∨ (prot.write ∧ ¬ caps.write) ∨ (prot.exec ∧ ¬ caps.exec) then
    .error (-22)
  else .ok { caps with copy := false }

/-- Lines 932-942. -/
def validatePrivate (prot : Prot) (caps : Caps) : Except Int Caps :=
  if ¬ caps.copy then .error (-19)
  else if prot.write then .ok { caps with direct := false }
  else .ok caps

/-- Lines 946-963. `PROT_EXEC` that reading implies is for the security module only. -/
def validateExec (file : File) (prot : Prot) (caps : Caps) : Except Int Caps :=
  if file.noexec then if prot.exec then .error (-1) else .ok caps
  else if prot.read ∧ prot.exec ∧ ¬ caps.exec then .ok { caps with direct := false }
  else .ok caps

/-- Lines 854-964. -/
def validateFile (req : Request) (file : File) : Except Int Caps :=
  if ¬ file.hasMmap then .error (-19)
  else do
    let caps ← deviceCaps file
    let caps := { caps with
      direct := caps.direct && file.hasGetUnmappedArea
      copy := caps.copy && file.hasRead }
    if ¬ file.modeRead then .error (-13)
    else do
      let caps ← if req.mapType = .shared then validateShared file req.prot caps
        else validatePrivate req.prot caps
      validateExec file req.prot caps

/-- `validate_mmap_request`. -/
def validateMmapRequest (taskSize : Nat) (req : Request) (env : Answers) : Except Int Caps := do
  validateSize taskSize req
  let caps ← match req.file with
    | some file => validateFile req file
    | none => .ok { Caps.none with copy := true }
  if env.security < 0 then .error env.security else .ok caps

/-- `VM_SHARED`, `VM_MAYSHARE`, `VM_MAPPED_COPY` and `VM_EXECUTABLE`. -/
structure VmFlags where
  shared : Bool
  mayShare : Bool
  mappedCopy : Bool
  executable : Bool
  deriving DecidableEq, Repr

/-- `determine_vm_flags`, `mm/nommu.c:991`. All of `VM_MAYREAD`, `VM_MAYWRITE` and `VM_MAYEXEC` are
set, so the test against the capabilities asks for all three. -/
def determineVmFlags (req : Request) (caps : Caps) (traced : Bool) : VmFlags :=
  let flags : VmFlags :=
    if ¬ caps.direct then ⟨false, req.file.isSome && !req.prot.write, false, req.executable⟩
    else if req.mapType = .shared then ⟨true, true, false, req.executable⟩
    else ⟨false, caps.read && caps.write && caps.exec, false, req.executable⟩
  if req.mapType = .priv ∧ traced then { flags with mayShare := false } else flags

/-! ### Memory -/

/-- `struct vm_region`. -/
structure VmRegion where
  id : Nat
  vmStart : Nat
  vmEnd : Nat
  vmTop : Nat
  vmPgoff : Nat
  vmUsage : Int
  vmFlags : VmFlags
  vmFile : Option File
  deriving DecidableEq, Repr

/-- `struct vm_area_struct`; `mm` is the process and `vmRegion` names the region. -/
structure Vma where
  id : Nat
  mm : Nat
  vmStart : Nat
  vmEnd : Nat
  vmPgoff : Nat
  vmFile : Option File
  vmFlags : VmFlags
  vmRegion : Nat
  deriving DecidableEq, Repr

/-- The reference counts of the pages, and `mmap_pages_allocated`. -/
structure Pages where
  pageCount : Nat → Option Nat
  mmapPagesAllocated : Int
  badFree : Bool

/-- Pages without mappings. -/
def Pages.toNommu (p : Pages) : Nommu where
  mms := fun _ => ⟨[], none, 0⟩
  regionTree := []
  mmapPagesAllocated := p.mmapPagesAllocated
  pageCount := p.pageCount
  badFree := p.badFree
  nextId := 0

/-- The pages alone. -/
def Pages.ofNommu (s : Nommu) : Pages := ⟨s.pageCount, s.mmapPagesAllocated, s.badFree⟩

/-- `free_page_series`, `mm/nommu.c:532`. -/
def Pages.freePageSeries (p : Pages) (start stop : Nat) : Pages :=
  .ofNommu (Mm.freePageSeries p.toNommu start stop)

/-- The pages of `do_mmap_private`, `mm/nommu.c:1084-1126`, and how many of them are kept. -/
def Pages.mmapPages (p : Pages) (rlen base : Nat) (trim : Int) : Pages × Nat :=
  let r := Mm.mmapPages p.toNommu rlen base trim
  (.ofNommu r.1, r.2)

/-- The part of `struct mm_struct` that is about the executable. -/
structure MmExe where
  exeFile : Option File
  numExeFileVmas : BitVec 32

/-- All regions in the order of the tree, all VMAs, the pages, the reference counts of files, the
processes' executables and the name for the next record. `exe none` is what is read and written
through a null `mm`. -/
structure Mem where
  regionTree : List VmRegion
  vmas : List Vma
  pages : Pages
  fCount : Nat → Int
  exe : Option Nat → MmExe
  nextId : Nat

/-- `get_file` or `fput` of a file, if there is one. -/
def addCount (fCount : Nat → Int) (d : Int) : Option File → Nat → Int
  | none => fCount
  | some f => Function.update fCount f.id (fCount f.id + d)

/-- A change of the reference count of a file. -/
def Mem.addFile (s : Mem) (d : Int) (file : Option File) : Mem :=
  { s with fCount := addCount s.fCount d file }

/-- `added_exe_file_vma`. -/
def addedExeFileVma (exe : Option Nat → MmExe) (mm : Option Nat) : Option Nat → MmExe :=
  Function.update exe mm { exe mm with numExeFileVmas := (exe mm).numExeFileVmas + 1 }

/-- `removed_exe_file_vma`: with the last mapping the executable is released. -/
def Mem.removedExeFileVma (s : Mem) (mm : Option Nat) : Mem :=
  let num := (s.exe mm).numExeFileVmas - 1
  { s with
    fCount := if num = 0 then addCount s.fCount (-1) (s.exe mm).exeFile else s.fCount
    exe := Function.update s.exe mm ⟨if num = 0 then none else (s.exe mm).exeFile, num⟩ }

/-- Change one region where it is in the tree. -/
def onRegion (id : Nat) (f : VmRegion → VmRegion) (tree : List VmRegion) : List VmRegion :=
  tree.map fun r => if r.id = id then f r else r

/-- The order of the region tree. -/
def regionCmp (r q : VmRegion) : Ordering := compare r.vmStart q.vmStart

/-- `add_nommu_region`, `mm/nommu.c:489`, of a region that is not in the tree. -/
def addNommuRegion (tree : List VmRegion) (region : VmRegion) : Option (List VmRegion) :=
  treeInsert regionCmp region tree

/-! ### `do_mmap_pgoff`, `mm/nommu.c:1182` -/

/-- `-ENOSYS`. -/
def enosys : Int := -38

/-- How the search for a region to share ends. -/
inductive Search
  | none
  | violation
  | found (pregion : VmRegion)
  deriving DecidableEq, Repr

/-- The pages of a byte range, rounded up. -/
def pagesOf (bytes : Nat) : Nat := wadd bytes (pageSize - 1) / pageSize

/-- `rpglen`. -/
def VmRegion.rpglen (r : VmRegion) : Nat := pagesOf (wsub r.vmEnd r.vmStart)

/-- `rpgend`. -/
def VmRegion.rpgend (r : VmRegion) : Nat := wadd r.vmPgoff r.rpglen

/-- The region is shareable, of this inode, and overlaps the pages. -/
def VmRegion.overlaps (r : VmRegion) (inode pgoff pgend : Nat) : Bool :=
  r.vmFlags.mayShare && (r.vmFile.map (·.inode) == some inode) &&
    !decide (pgend ≤ r.vmPgoff) && !decide (r.rpgend ≤ pgoff)

/-- The pages are just those of the region, or some of them. -/
def VmRegion.covers (r : VmRegion) (pgoff pglen : Nat) : Bool :=
  (r.vmPgoff == pgoff && r.rpglen == pglen) ||
    (decide (r.vmPgoff ≤ pgoff) && decide (wadd pgoff pglen ≤ r.rpgend))

/-- Lines 1258-1288: the loop over the tree. -/
def searchRegions (inode pgoff pglen : Nat) (direct : Bool) : List VmRegion → Search
  | [] => .none
  | pregion :: rest =>
    if !pregion.overlaps inode pgoff (wadd pgoff pglen) then
      searchRegions inode pgoff pglen direct rest
    else if !pregion.covers pgoff pglen then
      if direct then searchRegions inode pgoff pglen direct rest else .violation
    else .found pregion

/-- `do_mmap_shared_file`, `mm/nommu.c:1031`, with the result of the file's `mmap` method; on
success the region ends where its last byte is. -/
def doMmapSharedFile (ret : Int) : Int × (VmRegion → VmRegion) :=
  if ret = 0 then (0, fun r => { r with vmTop := r.vmEnd })
  else if ret ≠ enosys then (ret, id)
  else (-19, id)

/-- Lines 1230-1239: both references to the file are taken. `VM_EXECUTABLE` is set in `vm_flags` as
`MAP_EXECUTABLE` is in the request. -/
def Mem.takeFile (s : Mem) (mm : Nat) (req : Request) : Mem :=
  { (s.addFile 1 req.file).addFile 1 req.file with
    exe := if req.file.isSome ∧ req.executable then addedExeFileVma s.exe (some mm) else s.exe }

/-- The exit `error` (lines 1385-1395): both references to the file are dropped. `vma->vm_mm` is
null without a file. -/
def errorExit (s : Mem) (mm : Nat) (req : Request) (ret : Int) : Int × Mem :=
  let s := (s.addFile (-1) req.file).addFile (-1) req.file
  (ret, if req.executable then s.removedExeFileVma (req.file.map fun _ => mm) else s)

/-- Where in a region the page of a request is. -/
def VmRegion.pageAddr (r : VmRegion) (pgoff : Nat) : Nat :=
  wadd r.vmStart (wmul (wsub pgoff r.vmPgoff) pageSize)

/-- The VMA of a request. -/
def Request.vma (req : Request) (s : Mem) (mm : Nat) (flags : VmFlags) (start stop region : Nat) :
    Vma :=
  ⟨s.nextId, mm, start, stop, req.pgoff, req.file, flags, region⟩

/-- Lines 1288-1315: share a region that was found. -/
def shareRegion (s : Mem) (mm : Nat) (req : Request) (env : Answers) (flags : VmFlags)
    (pregion : VmRegion) : Int × Mem :=
  let used := onRegion pregion.id (fun r => { r with vmUsage := r.vmUsage + 1 }) s.regionTree
  let unused := onRegion pregion.id (fun r => { r with vmUsage := r.vmUsage - 1 }) used
  let start := pregion.pageAddr req.pgoff
  let mapped := if pregion.vmFlags.mappedCopy then (0, id) else doMmapSharedFile env.mmap
  if mapped.1 < 0 then errorExit { s with regionTree := unused } mm req mapped.1
  else
    let flags := { flags with mappedCopy := flags.mappedCopy || pregion.vmFlags.mappedCopy }
    let vma := req.vma s mm flags start (wadd start req.len) pregion.id
    (start, { s.addFile (-1) req.file with
      regionTree := onRegion pregion.id mapped.2 used
      vmas := vma :: s.vmas
      nextId := s.nextId + 1 })

/-- Lines 1318-1342: where a direct mapping is to be; the capabilities afterwards. -/
def siteMapping (caps : Caps) (addr : Nat) : Except Int (Caps × Option Nat) :=
  if ¬ caps.direct then .ok (caps, none)
  else if 4294963201 ≤ addr then
    if (addr : Int) - 4294967296 ≠ enosys then .error ((addr : Int) - 4294967296)
    else if ¬ caps.copy then .error (-19)
    else .ok ({ caps with direct := false }, none)
  else .ok (caps, some addr)

/-- How a mapping was set up: a `BUG()`, an error, or a region and the bounds of the VMA. -/
inductive Setup
  | bug
  | fail (ret : Int) (pages : Pages)
  | done (pages : Pages) (region : VmRegion) (start stop : Nat)

/-- The region of a request before it is set up, sited at an address if there is one. -/
def Request.region (req : Request) (s : Mem) (flags : VmFlags) (addr : Option Nat) : VmRegion :=
  match addr with
  | none => ⟨s.nextId, 0, 0, 0, req.pgoff, 1, flags, req.file⟩
  | some a => ⟨s.nextId, a, wadd a req.len, 0, req.pgoff, 1, flags, req.file⟩

/-- The end of setting up a mapping whose pages belong to the file. -/
def setupMapped (pages : Pages) (region : VmRegion) (mapped : Int × (VmRegion → VmRegion)) :
    Setup :=
  if mapped.1 < 0 then .fail mapped.1 pages
  else .done pages (mapped.2 region) region.vmStart region.vmEnd

/-- Lines 1083-1164 of `do_mmap_private`: memory of its own, with a copy of the file in it. -/
def copyMapping (pages : Pages) (req : Request) (env : Answers) (region : VmRegion) : Setup :=
  match env.block with
  | none => .fail (-12) pages
  | some base =>
    let rlen := pageAlign req.len
    let start := wmul base pageSize
    let kept := pages.mmapPages rlen base env.trim
    let region := { region with
      vmStart := start
      vmEnd := wadd start rlen
      vmTop := wadd start (wmul kept.2 pageSize)
      vmFlags := { region.vmFlags with mappedCopy := true } }
    if req.file.isSome ∧ env.read < 0 then
      .fail env.read (kept.1.freePageSeries region.vmStart region.vmEnd)
    else .done kept.1 region start (wadd start req.len)

/-- `do_mmap_private`, `mm/nommu.c:1053`. -/
def doMmapPrivate (pages : Pages) (req : Request) (env : Answers) (caps : Caps)
    (region : VmRegion) : Setup :=
  if caps.direct ∧ env.mmap ≠ enosys then
    if env.mmap = 0 ∧ ¬ region.vmFlags.mayShare then .bug
    else setupMapped pages region (doMmapSharedFile env.mmap)
  else copyMapping pages req env region

/-- Lines 1350-1353. -/
def setupMapping (pages : Pages) (req : Request) (env : Answers) (caps : Caps)
    (region : VmRegion) : Setup :=
  if req.file.isSome ∧ region.vmFlags.shared then
    setupMapped pages region (doMmapSharedFile env.mmap)
  else doMmapPrivate pages req env caps region

/-- Lines 1345-1369: set up a mapping of its own and register it. -/
def newMapping (s : Mem) (mm : Nat) (req : Request) (env : Answers) (flags : VmFlags)
    (caps : Caps) (addr : Option Nat) : Option (Int × Mem) :=
  match setupMapping s.pages req env caps (req.region s flags addr) with
  | .bug => none
  | .fail ret pages => some (errorExit { s with pages := pages } mm req ret)
  | .done pages region start stop => do
    let tree ← addNommuRegion s.regionTree region
    let vma := req.vma s mm region.vmFlags start stop region.id
    some (start, { s with
      regionTree := tree, vmas := vma :: s.vmas, pages := pages, nextId := s.nextId + 1 })

/-- Lines 1241-1369: from when both references to the file are taken. -/
def mapRequest (s : Mem) (mm : Nat) (req : Request) (env : Answers) (caps : Caps)
    (flags : VmFlags) : Option (Int × Mem) :=
  if flags.mayShare then
    match searchRegions ((req.file.map (·.inode)).getD 0) req.pgoff (pagesOf req.len) caps.direct
        s.regionTree with
    | .violation => some (errorExit s mm req (-22))
    | .found pregion => some (shareRegion s mm req env flags pregion)
    | .none =>
      match siteMapping caps env.unmappedArea with
      | .error e => some (errorExit s mm req e)
      | .ok (caps, addr) => newMapping s mm req env flags caps addr
  else newMapping s mm req env flags caps none

/-- `do_mmap_pgoff`. -/
def doMmapPgoff (taskSize : Nat) (s : Mem) (mm : Nat) (req : Request) (env : Answers) :
    Option (Int × Mem) :=
  match validateMmapRequest taskSize req env with
  | .error e => some (e, s)
  | .ok caps =>
    if ¬ env.regionMem then some (-12, s)
    else if ¬ env.vmaMem then some (-12, s)
    else
      mapRequest (s.takeFile mm req) mm req env caps (determineVmFlags req caps env.traced)

/-! ### Unmapping -/

/-- The region a VMA points to. -/
def Mem.regionOf (s : Mem) (vma : Vma) : Option VmRegion :=
  s.regionTree.find? fun r => r.id = vma.vmRegion

/-- The last reference to a region is gone: `mm/nommu.c:559-573`. -/
def destroyRegion (s : Mem) (region : VmRegion) : Mem :=
  let s := { s with
    regionTree := if region.vmStart < region.vmTop then s.regionTree.erase region
      else s.regionTree }
  let s := s.addFile (-1) region.vmFile
  if region.vmFlags.mappedCopy then
    { s with pages := s.pages.freePageSeries region.vmStart region.vmTop }
  else s

/-- `__put_nommu_region`, `mm/nommu.c:552`. -/
def putNommuRegion (s : Mem) (region : VmRegion) : Mem :=
  if region.vmUsage - 1 = 0 then destroyRegion s region
  else { s with
    regionTree :=
      onRegion region.id (fun r => { r with vmUsage := r.vmUsage - 1 }) s.regionTree }

/-- `delete_vma_from_mm` and `delete_vma`: a VMA is dropped with its references to the file and to
the region. -/
def deleteVma (s : Mem) (vma : Vma) : Option Mem :=
  (s.regionOf vma).map fun region =>
    let s := { s with vmas := s.vmas.erase vma }.addFile (-1) vma.vmFile
    putNommuRegion (if vma.vmFile.isSome ∧ vma.vmFlags.executable
      then s.removedExeFileVma (some vma.mm) else s) region

/-- Replace a region in the tree by one that is cut, `delete_nommu_region` and
`add_nommu_region`. -/
def recutRegion (s : Mem) (region cut : VmRegion) : Option Mem :=
  (addNommuRegion (s.regionTree.erase region) cut).map fun tree => { s with regionTree := tree }

/-- What a call of `munmap` gets from its surroundings: the VMA that `find_vma` returns, the one at
which the loop over the VMAs of a file ends, the limit on the number of VMAs and memory for
records. -/
structure MunmapAnswers where
  found : Option Vma
  last : Option Vma
  maxMapCount : Nat
  mem : Bool
  deriving DecidableEq, Repr

/-- `split_vma`, `mm/nommu.c:1449`, of an anonymous VMA with `new_below` set, as `do_munmap` calls
it; the VMA as it is afterwards. -/
def splitVma (s : Mem) (vma : Vma) (addr : Nat) (env : MunmapAnswers) :
    Option (Int × Mem × Vma) :=
  if env.maxMapCount ≤ s.vmas.countP (·.mm = vma.mm) then some (-12, s, vma)
  else if env.mem = false then some (-12, s, vma)
  else do
    let region ← s.regionOf vma
    let pgoff := wadd vma.vmPgoff (wsub addr vma.vmStart / pageSize)
    let below := { region with id := s.nextId, vmTop := addr, vmEnd := addr }
    let s' ← recutRegion s region { region with vmStart := addr, vmPgoff := pgoff }
    let tree ← addNommuRegion s'.regionTree below
    let upper := { vma with vmStart := addr, vmPgoff := pgoff }
    let new := { vma with id := s.nextId, vmEnd := addr, vmRegion := s.nextId }
    some (0, { s' with
      regionTree := tree
      vmas := new :: upper :: s.vmas.erase vma
      nextId := s.nextId + 1 }, upper)

/-- `shrink_vma`, `mm/nommu.c:1515`. -/
def shrinkVma (s : Mem) (vma : Vma) (start stop : Nat) : Option Mem := do
  let region ← s.regionOf vma
  let cut := if vma.vmStart < start then { vma with vmEnd := start }
    else { vma with vmStart := stop }
  if region.vmUsage ≠ 1 then none
  else
    let s ← recutRegion { s with vmas := cut :: s.vmas.erase vma } region
      (if region.vmStart < start then { region with vmTop := start, vmEnd := start }
        else { region with vmStart := stop })
    some { s with
      pages := s.pages.freePageSeries start
        (if region.vmStart < start then region.vmTop else stop) }

/-- The end of `do_munmap` on an anonymous VMA that has more than the chunk. -/
def munmapChunk (s : Mem) (vma : Vma) (start stop : Nat) (env : MunmapAnswers) :
    Option (Int × Mem) :=
  if start ≠ vma.vmStart ∧ stop ≠ vma.vmEnd then
    (splitVma s vma start env).bind fun r =>
      if r.1 < 0 then some (r.1, r.2.1)
      else (shrinkVma r.2.1 r.2.2 start stop).map fun s => (0, s)
  else (shrinkVma s vma start stop).map fun s => (0, s)

/-- `do_munmap`, `mm/nommu.c:1556`. -/
def doMunmap (s : Mem) (start len : Nat) (env : MunmapAnswers) : Option (Int × Mem) :=
  let stop := wadd start len
  if len = 0 then some (-22, s)
  else
    match env.found with
    | none => some (-22, s)
    | some vma =>
      if vma.vmFile.isSome then
        match env.last with
        | none => some (-22, s)
        | some vma => (deleteVma s vma).map fun s => (0, s)
      else if start = vma.vmStart ∧ stop = vma.vmEnd then
        (deleteVma s vma).map fun s => (0, s)
      else if start < vma.vmStart ∨ vma.vmEnd < stop then some (-22, s)
      else if start % pageSize ≠ 0 then some (-22, s)
      else if stop ≠ vma.vmEnd ∧ stop % pageSize ≠ 0 then some (-22, s)
      else munmapChunk s vma start stop env

/-- The loop of `exit_mmap`, `mm/nommu.c:1645`. -/
def exitMmap (s : Mem) : List Vma → Option Mem
  | [] => some s
  | vma :: rest => (deleteVma s vma).bind fun s => exitMmap s rest

/-! ### Runs -/

/-- A call by process `mm`. -/
inductive Call
  | mmap (mm : Nat) (req : Request) (env : Answers)
  | munmap (mm start len : Nat) (env : MunmapAnswers)
  | exit (mm : Nat)
  deriving DecidableEq, Repr

/-- Make a call; nothing follows a `BUG()`. -/
def Call.run (taskSize : Nat) (s : Mem) : Call → Option Mem
  | .mmap mm req env => (doMmapPgoff taskSize s mm req env).map (·.2)
  | .munmap _ start len env => (doMunmap s start len env).map (·.2)
  | .exit mm => exitMmap s (s.vmas.filter (·.mm = mm))

/-- Nothing is mapped. -/
def Mem.Empty (s : Mem) : Prop := s.regionTree = [] ∧ s.vmas = []

/-- A state in which every page is free. -/
def nothingMapped : Mem :=
  ⟨[], [], ⟨fun _ => none, 0, false⟩, fun _ => 1, fun _ => ⟨none, 0⟩, 0⟩

/-- A file that is mapped where it is, with the capabilities of ramfs. -/
def mappableFile : File :=
  ⟨0, 0, .reg, ⟨true, true, true, true, true, true⟩, true, true, true, true, true, false, false,
    false⟩

/-- A shared mapping of its first bytes. -/
def firstBytes (len : Nat) : Request :=
  ⟨some mappableFile, len, ⟨true, true, false⟩, false, false, .shared, 0⟩

/-- Memory for the records, and the address of the file. -/
def inPlace : Answers := ⟨0, false, true, true, 65536, 0, none, 0, 0⟩

/-- All sequences of calls. -/
def mmapSystem (taskSize : Nat) : System Mem Call where
  init := Mem.Empty
  step := Call.run taskSize

end LinuxStm32.Mm.Mmap
