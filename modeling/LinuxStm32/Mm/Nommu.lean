import Mathlib.Algebra.Order.Ring.Int
import Mathlib.Logic.Function.Basic
import LinuxStm32.Base.System
import LinuxStm32.Base.Tree
import LinuxStm32.Base.Word

/-!
# Mappings without an MMU

Model of `mm/nommu.c:450–760, 815–1180, 1449–1712`: the tree of regions, the processes' trees
of VMAs, and the calls that make, cut, resize and drop anonymous mappings. Addresses are words;
structures are known by a number that stands for their address. `none` as the result of an
operation is a `BUG`. `nommu.c` keeps the VMAs of a process in a tree and in a list; only the
tree is kept here, in its order, which is the list's for VMAs that start at different addresses.

The page allocator is the environment: it hands out any block of pages that are free.
`pageCount` holds the reference count of the pages it handed out; `badFree` records that a page
was given back that was not held. `Mm.Mmap` takes both over for mappings of files.
-/

namespace LinuxStm32.Mm

open Base

/-- `struct vm_region`; `mappedCopy` is `VM_MAPPED_COPY`. -/
structure VmRegion where
  id : Nat
  vmStart : Nat
  vmEnd : Nat
  vmTop : Nat
  vmPgoff : Nat
  vmUsage : Int
  mappedCopy : Bool
  deriving DecidableEq, Repr

/-- `struct vm_area_struct`; `mayShare` is `VM_MAYSHARE`. -/
structure Vma where
  id : Nat
  vmStart : Nat
  vmEnd : Nat
  vmPgoff : Nat
  vmFile : Bool
  mayShare : Bool
  vmRegion : Nat
  deriving DecidableEq, Repr

/-- The part of `struct mm_struct` that holds mappings. -/
structure MmStruct where
  mmRb : List Vma
  mmapCache : Option Nat
  mapCount : Int
  deriving DecidableEq, Repr

/-- All processes' mappings, the region tree and the pages. -/
structure Nommu where
  mms : Nat → MmStruct
  regionTree : List VmRegion
  mmapPagesAllocated : Int
  pageCount : Nat → Option Nat
  badFree : Bool
  nextId : Nat

/-- Change the mappings of one process. -/
def Nommu.setMm (s : Nommu) (m : Nat) (mm : MmStruct) : Nommu :=
  { s with mms := Function.update s.mms m mm }

/-! ### Pages -/

/-- `put_page`. -/
def putPage (s : Nommu) (p : Nat) : Nommu :=
  match s.pageCount p with
  | some 1 => { s with pageCount := Function.update s.pageCount p none }
  | some (c + 2) => { s with pageCount := Function.update s.pageCount p (some (c + 1)) }
  | _ => { s with badFree := true }

/-- The loop of `free_page_series`, over `n` pages. -/
def freePageLoop : Nat → Nat → Nommu → Nommu
  | 0, _, s => s
  | n + 1, p, s =>
    freePageLoop n (p + 1) (putPage { s with mmapPagesAllocated := s.mmapPagesAllocated - 1 } p)

/-- `free_page_series`, `mm/nommu.c:532`. -/
def freePageSeries (s : Nommu) (start stop : Nat) : Nommu :=
  freePageLoop ((stop - start + (pageSize - 1)) / pageSize) (start / pageSize) s

/-- The loop of `get_order`, `include/asm-generic/getorder.h`. -/
def getOrderLoop : Nat → Nat → Nat
  | 0, _ => 0
  | fuel + 1, size => if size / 2 = 0 then 0 else getOrderLoop fuel (size / 2) + 1

/-- `get_order`; 32 rounds are enough for a word. -/
def getOrder (size : Nat) : Nat := getOrderLoop 32 (wsub size 1 / 2048)

/-- A block of pages just handed out: only its first page has a reference. -/
def allocPages (s : Nommu) (base order : Nat) : Nommu :=
  { s with
    pageCount := fun p =>
      if base ≤ p ∧ p < base + 2 ^ order then some (if p = base then 1 else 0) else s.pageCount p
    mmapPagesAllocated := s.mmapPagesAllocated + 2 ^ order }

/-- `set_page_refcounted` and `__free_pages` of a block of `n` pages. -/
def freeBlock (s : Nommu) (base n : Nat) : Nommu :=
  { s with
    pageCount := fun p => if base ≤ p ∧ p < base + n then none else s.pageCount p
    badFree := s.badFree || (List.range n).any fun k => s.pageCount (base + k) != some 0 }

/-- The loop that trims the excess of a block, `mm/nommu.c:1112–1120`: the pages from `point`
on are given back in the largest powers of two, from the top. -/
def trimPages (base point : Nat) : Nat → Nat → Nommu → Nommu × Nat
  | 0, total, s => (s, total)
  | fuel + 1, total, s =>
    if point < total then
      let n := 2 ^ (total - point).log2
      trimPages base point fuel (total - n) (freeBlock
        { s with mmapPagesAllocated := s.mmapPagesAllocated - n } (base + (total - n)) n)
    else (s, total)

/-- The loop that gives every kept page but the first a reference. -/
def setRefcounted (s : Nommu) (base total : Nat) : Nommu :=
  { s with pageCount := fun p => if base < p ∧ p < base + total then some 1 else s.pageCount p }

/-! ### Trees -/

/-- The order of the region tree. -/
def regionCmp (r q : VmRegion) : Ordering := compare r.vmStart q.vmStart

/-- The order of a process's tree: start, end, structure. -/
def vmaCmp (v w : Vma) : Ordering :=
  (compare v.vmStart w.vmStart).then ((compare v.vmEnd w.vmEnd).then (compare v.id w.id))

/-- `add_nommu_region`, `mm/nommu.c:489`: a region that is in the tree already stays. -/
def addNommuRegion (tree : List VmRegion) (region : VmRegion) : Option (List VmRegion) :=
  if region ∈ tree then some tree else treeInsert regionCmp region tree

/-- `delete_nommu_region`, `mm/nommu.c:520`. -/
def deleteNommuRegion (tree : List VmRegion) (region : VmRegion) : List VmRegion :=
  tree.erase region

/-- `add_vma_to_mm`, `mm/nommu.c:608`. -/
def addVmaToMm (mm : MmStruct) (vma : Vma) : Option MmStruct :=
  (treeInsert vmaCmp vma mm.mmRb).map fun rb =>
    { mm with mmRb := rb, mapCount := mm.mapCount + 1 }

/-- `delete_vma_from_mm`, `mm/nommu.c:675`. -/
def deleteVmaFromMm (mm : MmStruct) (vma : Vma) : MmStruct where
  mmRb := mm.mmRb.erase vma
  mmapCache := if mm.mmapCache = some vma.id then none else mm.mmapCache
  mapCount := mm.mapCount - 1

/-- The region a VMA points to. -/
def Nommu.regionOf (s : Nommu) (vma : Vma) : Option VmRegion :=
  s.regionTree.find? fun r => r.id = vma.vmRegion

/-- `__put_nommu_region`, `mm/nommu.c:552`. -/
def putNommuRegion (s : Nommu) (region : VmRegion) : Nommu :=
  if region.vmUsage - 1 = 0 then
    let s := { s with
      regionTree := if region.vmStart < region.vmTop then deleteNommuRegion s.regionTree region
        else s.regionTree }
    if region.mappedCopy then freePageSeries s region.vmStart region.vmTop else s
  else
    { s with
      regionTree := s.regionTree.replace region { region with vmUsage := region.vmUsage - 1 } }

/-- `delete_vma_from_mm` and `delete_vma`: a VMA is dropped with its reference to the region. -/
def eraseWholeVma (s : Nommu) (m : Nat) (vma : Vma) : Option Nommu := do
  let region ← s.regionOf vma
  some (putNommuRegion (s.setMm m (deleteVmaFromMm (s.mms m) vma)) region)

/-- The VMA in `mmap_cache`. -/
def MmStruct.cached (mm : MmStruct) : Option Vma := do
  let id ← mm.mmapCache
  mm.mmRb.find? fun v => v.id = id

/-- The walk of `find_vma` through the tree. -/
def findVmaWalk (addr : Nat) : List Vma → Option Vma
  | [] => none
  | v :: t =>
    if addr < v.vmStart then none else if addr < v.vmEnd then some v else findVmaWalk addr t

/-- `find_vma`, `mm/nommu.c:735`. -/
def findVma (mm : MmStruct) (addr : Nat) : Option Vma :=
  match mm.cached.filter fun v => v.vmStart ≤ addr ∧ addr < v.vmEnd with
  | some v => some v
  | none => findVmaWalk addr mm.mmRb

/-- The walk of `find_vma_exact` through the tree. -/
def findVmaExactWalk (addr stop : Nat) : List Vma → Option Vma
  | [] => none
  | v :: t =>
    if v.vmStart < addr then findVmaExactWalk addr stop t
    else if addr < v.vmStart then none
    else if v.vmEnd = stop then some v
    else findVmaExactWalk addr stop t

/-- `find_vma_exact`, `mm/nommu.c:784`. -/
def findVmaExact (mm : MmStruct) (addr len : Nat) : Option Vma :=
  match mm.cached.filter fun v => v.vmStart = addr ∧ v.vmEnd = wadd addr len with
  | some v => some v
  | none => findVmaExactWalk addr (wadd addr len) mm.mmRb

/-- A VMA that was found is cached. -/
def Nommu.cache (s : Nommu) (m : Nat) (vma : Vma) : Nommu :=
  s.setMm m { s.mms m with mmapCache := some vma.id }

/-! ### Calls -/

/-- An anonymous mapping request: `MAP_FIXED`, the `MAP_TYPE` bits, length, offset and the
verdict of the security module. -/
structure MmapRequest where
  fixed : Bool
  mapType : Nat
  len : Nat
  pgoff : Nat
  security : Int
  deriving DecidableEq, Repr

/-- `validate_mmap_request` without a file, `mm/nommu.c:815`. -/
def validateMmapRequest (taskSize : Nat) (req : MmapRequest) : Int :=
  let rlen := pageAlign req.len
  if req.fixed then -22
  else if req.mapType ≠ 2 ∧ req.mapType ≠ 1 then -22
  else if req.len = 0 then -22
  else if rlen = 0 ∨ taskSize < rlen then -12
  else if wadd req.pgoff (rlen / pageSize) < req.pgoff then -75
  else if req.security < 0 then req.security
  else 0

/-- A signed number as the word it is compared as. -/
def toWord (n : Int) : Nat := (n % 4294967296).toNat

/-- The pages of `do_mmap_private`, `mm/nommu.c:1084–1126`, and how many of them are kept. -/
def mmapPages (s : Nommu) (rlen base : Nat) (trim : Int) : Nommu × Nat :=
  let order := getOrder rlen
  let point := rlen / pageSize
  let s := allocPages s base order
  let kept := if trim ≠ 0 ∧ toWord trim ≤ wsub (2 ^ order) point
    then trimPages base point (2 ^ order) (2 ^ order) s else (s, 2 ^ order)
  (setRefcounted kept.1 base kept.2, kept.2)

/-- `do_mmap_pgoff` without a file, `mm/nommu.c:1182`. The result of `alloc_pages` is `block`,
the first page of a block or nothing; `trim` is `sysctl_nr_trim_pages`. -/
def doMmapPgoff (taskSize : Nat) (s : Nommu) (m : Nat) (req : MmapRequest) (kmem : Bool)
    (block : Option Nat) (trim : Int) : Option (Int × Nommu) :=
  if validateMmapRequest taskSize req < 0 then some (validateMmapRequest taskSize req, s)
  else if kmem = false then some (-12, s)
  else
    match block with
    | none => some (-12, s)
    | some base => do
      let rlen := pageAlign req.len
      let start := wmul base pageSize
      let pages := mmapPages s rlen base trim
      let region : VmRegion := ⟨s.nextId, start, wadd start rlen,
        wadd start (wmul pages.2 pageSize), req.pgoff, 1, true⟩
      let vma : Vma := ⟨s.nextId, start, wadd start req.len, req.pgoff, false, false, s.nextId⟩
      let tree ← addNommuRegion s.regionTree region
      let mm ← addVmaToMm (s.mms m) vma
      some (start, { pages.1.setMm m mm with regionTree := tree, nextId := s.nextId + 1 })

/-- `split_vma`, `mm/nommu.c:1453`, with the VMA as it is afterwards. -/
def splitVma (s : Nommu) (m : Nat) (vma : Vma) (addr : Nat) (newBelow : Bool)
    (maxMapCount : Int) (kmem : Bool) : Option (Int × Nommu × Vma) :=
  if vma.vmFile then some (-12, s, vma)
  else if maxMapCount ≤ (s.mms m).mapCount then some (-12, s, vma)
  else if kmem = false then some (-12, s, vma)
  else do
    let old ← s.regionOf vma
    let pgoff := wadd vma.vmPgoff (wsub addr vma.vmStart / pageSize)
    let region := if newBelow then { old with id := s.nextId, vmTop := addr, vmEnd := addr }
      else { old with id := s.nextId, vmStart := addr, vmPgoff := pgoff }
    let new := if newBelow then { vma with id := s.nextId, vmRegion := s.nextId, vmEnd := addr }
      else { vma with id := s.nextId, vmRegion := s.nextId, vmStart := addr, vmPgoff := pgoff }
    let old' := if newBelow then { old with vmStart := addr, vmPgoff := pgoff }
      else { old with vmEnd := addr, vmTop := addr }
    let vma' := if newBelow then { vma with vmStart := addr, vmPgoff := pgoff }
      else { vma with vmEnd := addr }
    let tree ← addNommuRegion (deleteNommuRegion s.regionTree old) old'
    let tree ← addNommuRegion tree region
    let mm ← addVmaToMm (deleteVmaFromMm (s.mms m) vma) vma'
    let mm ← addVmaToMm mm new
    some (0, { s.setMm m mm with regionTree := tree, nextId := s.nextId + 1 }, vma')

/-- `shrink_vma`, `mm/nommu.c:1516`. -/
def shrinkVma (s : Nommu) (m : Nat) (vma : Vma) (start stop : Nat) : Option Nommu := do
  let vma' := if vma.vmStart < start then { vma with vmEnd := start }
    else { vma with vmStart := stop }
  let mm ← addVmaToMm (deleteVmaFromMm (s.mms m) vma) vma'
  let region ← s.regionOf vma
  if region.vmUsage ≠ 1 then none
  else
    let region' := if region.vmStart < start then { region with vmTop := start, vmEnd := start }
      else { region with vmStart := stop }
    let tree ← addNommuRegion (deleteNommuRegion s.regionTree region) region'
    some (freePageSeries { s.setMm m mm with regionTree := tree } start
      (if region.vmStart < start then region.vmTop else stop))

/-- The walk of `do_munmap` from a file-backed VMA on; `mm/nommu.c:1586–1596`. -/
def munmapFileWalk (start stop : Nat) : List Vma → Option Vma
  | [] => none
  | v :: t =>
    if v.vmStart < start then none
    else if stop = v.vmEnd then some v
    else munmapFileWalk start stop t

/-- `do_munmap`, `mm/nommu.c:1561`. -/
def doMunmap (s : Nommu) (m start len : Nat) (maxMapCount : Int) (kmem : Bool) :
    Option (Int × Nommu) :=
  let stop := wadd start len
  if len = 0 then some (-22, s)
  else
    match findVma (s.mms m) start with
    | none => some (-22, s)
    | some vma =>
      let s := s.cache m vma
      if vma.vmFile then
        match munmapFileWalk start stop ((s.mms m).mmRb.dropWhile (· ≠ vma)) with
        | none => some (-22, s)
        | some vma => (eraseWholeVma s m vma).map fun s => (0, s)
      else if start = vma.vmStart ∧ stop = vma.vmEnd then
        (eraseWholeVma s m vma).map fun s => (0, s)
      else if start < vma.vmStart ∨ vma.vmEnd < stop then some (-22, s)
      else if start % pageSize ≠ 0 then some (-22, s)
      else if stop ≠ vma.vmEnd ∧ stop % pageSize ≠ 0 then some (-22, s)
      else if start ≠ vma.vmStart ∧ stop ≠ vma.vmEnd then
        (splitVma s m vma start true maxMapCount kmem).bind fun r =>
          if r.1 < 0 then some (r.1, r.2.1)
          else (shrinkVma r.2.1 m r.2.2 start stop).map fun s => (0, s)
      else (shrinkVma s m vma start stop).map fun s => (0, s)

/-- The loop of `exit_mmap`. -/
def exitMmapLoop (m : Nat) : List Vma → Nommu → Option Nommu
  | [], s => some s
  | v :: t, s => (eraseWholeVma s m v).bind (exitMmapLoop m t)

/-- `exit_mmap`, `mm/nommu.c:1646`. -/
def exitMmap (s : Nommu) (m : Nat) : Option Nommu := exitMmapLoop m (s.mms m).mmRb s

/-- `do_mremap`, `mm/nommu.c:1680`. -/
def doMremap (s : Nommu) (m addr oldLen newLen : Nat) (fixed : Bool) (newAddr : Nat) :
    Option (Int × Nommu) :=
  if oldLen = 0 ∨ newLen = 0 then some (-22, s)
  else if addr % pageSize ≠ 0 then some (-22, s)
  else if fixed ∧ newAddr ≠ addr then some (-22, s)
  else
    match findVmaExact (s.mms m) addr oldLen with
    | none => some (-22, s)
    | some vma => do
      let s := s.cache m vma
      if vma.vmEnd ≠ wadd vma.vmStart oldLen then some (-14, s)
      else if vma.mayShare then some (-1, s)
      else
        let region ← s.regionOf vma
        if wsub region.vmEnd region.vmStart < newLen then some (-12, s)
        else
          let mm := { s.mms m with
            mmRb := (s.mms m).mmRb.replace vma { vma with vmEnd := wadd vma.vmStart newLen } }
          some (vma.vmStart, s.setMm m mm)

/-- The task size and the end of the memory, in pages. The last page of the address space is
not memory. -/
structure Ram where
  taskSize : Nat
  pages : Nat
  pages_lt : pages < 1048576

/-- A call by process `m`, with what its environment answers. -/
inductive NommuAct
  | mmap (m : Nat) (req : MmapRequest) (kmem : Bool) (block : Option Nat) (trim : Int)
  | munmap (m start len : Nat) (maxMapCount : Int) (kmem : Bool)
  | mremap (m addr oldLen newLen : Nat) (fixed : Bool) (newAddr : Nat)
  | exit (m : Nat)
  deriving DecidableEq, Repr

/-- A block the allocator may hand out: inside the memory, with every page free. -/
def BlockFree (ram : Ram) (s : Nommu) (order : Nat) : Option Nat → Prop
  | none => True
  | some base => base + 2 ^ order ≤ ram.pages ∧ ∀ k < 2 ^ order, s.pageCount (base + k) = none

instance (ram : Ram) (s : Nommu) (order : Nat) (block : Option Nat) :
    Decidable (BlockFree ram s order block) :=
  match block with
  | none => isTrue trivial
  | some _ => inferInstanceAs (Decidable (_ ∧ _))

/-- One call. Arguments are words. -/
def nommuStep (ram : Ram) (s : Nommu) : NommuAct → Option Nommu
  | .mmap m req kmem block trim =>
    if req.len < 4294967296 ∧ req.pgoff < 4294967296 ∧
        BlockFree ram s (getOrder (pageAlign req.len)) block then
      (doMmapPgoff ram.taskSize s m req kmem block trim).map Prod.snd
    else none
  | .munmap m start len maxMapCount kmem =>
    if start < 4294967296 ∧ len < 4294967296 then
      (doMunmap s m start len maxMapCount kmem).map Prod.snd
    else none
  | .mremap m addr oldLen newLen fixed newAddr =>
    if addr < 4294967296 ∧ oldLen < 4294967296 ∧ newLen < 4294967296 then
      (doMremap s m addr oldLen newLen fixed newAddr).map Prod.snd
    else none
  | .exit m => exitMmap s m

/-- No mapping exists and no page is held. -/
def Nommu.Empty (s : Nommu) : Prop :=
  (∀ m, (s.mms m).mmRb = []) ∧ s.regionTree = [] ∧ s.mmapPagesAllocated = 0 ∧
    (∀ p, s.pageCount p = none) ∧ s.badFree = false

/-- All sequences of calls. -/
def nommuSystem (ram : Ram) : System Nommu NommuAct where
  init := Nommu.Empty
  step := nommuStep ram

/-! ### What the operations can do -/

/-- Freeing pages changes pages only. -/
theorem freePageLoop_frame (n p : Nat) (s : Nommu) :
    (freePageLoop n p s).mms = s.mms ∧ (freePageLoop n p s).regionTree = s.regionTree ∧
      (freePageLoop n p s).nextId = s.nextId := by
  induction n generalizing p s with
  | zero => exact ⟨rfl, rfl, rfl⟩
  | succ n ih =>
    obtain ⟨hm, ht, hn⟩ :=
      ih (p + 1) (putPage { s with mmapPagesAllocated := s.mmapPagesAllocated - 1 } p)
    rw [freePageLoop, hm, ht, hn]
    unfold putPage
    split <;> exact ⟨rfl, rfl, rfl⟩

theorem addVmaToMm_perm {mm mm' : MmStruct} {vma : Vma} (h : addVmaToMm mm vma = some mm') :
    mm'.mmRb.Perm (vma :: mm.mmRb) := by
  obtain ⟨rb, hrb, rfl⟩ := Option.map_eq_some_iff.mp h
  exact treeInsert_perm hrb

theorem Nommu.cache_mmRb (s : Nommu) (m : Nat) (vma : Vma) (k : Nat) :
    ((s.cache m vma).mms k).mmRb = (s.mms k).mmRb := by
  by_cases hk : k = m
  · subst hk
    simp [cache, setMm]
  · simp [cache, setMm, hk]

theorem MmStruct.mem_of_cached {mm : MmStruct} {v : Vma} (h : mm.cached = some v) :
    v ∈ mm.mmRb := by
  obtain ⟨id, -, hf⟩ := Option.bind_eq_some_iff.mp h
  exact List.mem_of_find?_eq_some hf

private theorem findVmaWalk_mem {addr : Nat} {l : List Vma} {v : Vma}
    (h : findVmaWalk addr l = some v) : v ∈ l ∧ v.vmStart ≤ addr ∧ addr < v.vmEnd := by
  induction l with
  | nil => cases h
  | cons w t ih =>
    simp only [findVmaWalk] at h
    split at h
    · cases h
    · next hs =>
      split at h
      · next he =>
        cases h
        exact ⟨List.mem_cons_self, Nat.le_of_not_lt hs, he⟩
      · exact ⟨List.mem_cons_of_mem _ (ih h).1, (ih h).2⟩

/-- The VMA found contains the address. -/
theorem findVma_mem {mm : MmStruct} {addr : Nat} {v : Vma} (h : findVma mm addr = some v) :
    v ∈ mm.mmRb ∧ v.vmStart ≤ addr ∧ addr < v.vmEnd := by
  unfold findVma at h
  split at h
  · next hc =>
    cases h
    obtain ⟨hcached, hin⟩ := Option.filter_eq_some_iff.mp hc
    exact ⟨MmStruct.mem_of_cached hcached, of_decide_eq_true hin⟩
  · exact findVmaWalk_mem h

/-- How `do_munmap` proceeds: it refuses the call, drops a VMA, cuts one end off, or cuts a
hole. -/
inductive MunmapCase (s : Nommu) (m start stop : Nat) (maxMapCount : Int) (kmem : Bool) :
    Option (Int × Nommu) → Prop
  | refused (ret s') : ret ≠ 0 → (s' = s ∨ ∃ v, s' = s.cache m v) →
      MunmapCase s m start stop maxMapCount kmem (some (ret, s'))
  | file (v w) : findVma (s.mms m) start = some v → v.vmFile = true →
      munmapFileWalk start stop ((s.mms m).mmRb.dropWhile (· ≠ v)) = some w →
      MunmapCase s m start stop maxMapCount kmem
        ((eraseWholeVma (s.cache m v) m w).map fun s => (0, s))
  | whole (v) : findVma (s.mms m) start = some v → v.vmFile = false → start = v.vmStart →
      stop = v.vmEnd → MunmapCase s m start stop maxMapCount kmem
        ((eraseWholeVma (s.cache m v) m v).map fun s => (0, s))
  | shrink (v) : findVma (s.mms m) start = some v → v.vmFile = false → stop ≤ v.vmEnd →
      start % pageSize = 0 → (stop = v.vmEnd ∧ v.vmStart < start ∨
        stop < v.vmEnd ∧ start = v.vmStart ∧ stop % pageSize = 0) →
      MunmapCase s m start stop maxMapCount kmem
        ((shrinkVma (s.cache m v) m v start stop).map fun s => (0, s))
  | hole (v) : findVma (s.mms m) start = some v → v.vmFile = false → stop < v.vmEnd →
      start % pageSize = 0 → stop % pageSize = 0 → v.vmStart < start →
      (s.mms m).mapCount < maxMapCount → kmem = true →
      MunmapCase s m start stop maxMapCount kmem
        ((splitVma (s.cache m v) m v start true maxMapCount kmem).bind fun r =>
          if r.1 < 0 then some (r.1, r.2.1)
          else (shrinkVma r.2.1 m r.2.2 start stop).map fun s => (0, s))

/-- A split that lacks room or memory is refused. -/
private theorem splitVma_refused {s : Nommu} {m : Nat} {vma : Vma} {addr : Nat} {below : Bool}
    {maxMapCount : Int} {kmem : Bool} (hf : vma.vmFile = false)
    (h : ¬ ((s.mms m).mapCount < maxMapCount ∧ kmem = true)) :
    splitVma s m vma addr below maxMapCount kmem = some (-12, s, vma) := by
  unfold splitVma
  rw [if_neg (by simp [hf])]
  split
  · rfl
  · next hc =>
    rw [if_pos]
    exact eq_false_of_ne_true fun hk => h ⟨Int.not_le.mp hc, hk⟩

/-- Every call of `do_munmap` is one of the cases. -/
theorem doMunmap_case (s : Nommu) (m start len : Nat) (maxMapCount : Int) (kmem : Bool) :
    MunmapCase s m start (wadd start len) maxMapCount kmem
      (doMunmap s m start len maxMapCount kmem) := by
  unfold doMunmap
  dsimp only
  split
  · exact .refused _ _ (by decide) (.inl rfl)
  split
  · exact .refused _ _ (by decide) (.inl rfl)
  next v hv =>
  obtain ⟨hmem, hs, he⟩ := findVma_mem hv
  split
  · next hf =>
    rw [s.cache_mmRb m v m]
    split
    · exact .refused _ _ (by decide) (.inr ⟨v, rfl⟩)
    · next w hw => exact .file v w hv hf hw
  next hf =>
  have hf : v.vmFile = false := eq_false_of_ne_true hf
  split
  · next hwhole => exact .whole v hv hf hwhole.1 hwhole.2
  next hwhole =>
  split
  · exact .refused _ _ (by decide) (.inr ⟨v, rfl⟩)
  next hsub =>
  split
  · exact .refused _ _ (by decide) (.inr ⟨v, rfl⟩)
  next hstart =>
  split
  · exact .refused _ _ (by decide) (.inr ⟨v, rfl⟩)
  next hstop =>
  split
  · next hne =>
    by_cases hroom : (s.mms m).mapCount < maxMapCount ∧ kmem = true
    · exact .hole v hv hf (by omega) (by omega) (by omega) (by omega) hroom.1 hroom.2
    · have hcount : ¬ (((s.cache m v).mms m).mapCount < maxMapCount ∧ kmem = true) := by
        simpa [Nommu.cache, Nommu.setMm] using hroom
      rw [splitVma_refused hf hcount]
      exact .refused (-12) (s.cache m v) (by decide) (.inr ⟨v, rfl⟩)
  · next hne => exact .shrink v hv hf (by omega) (by omega) (by omega)

end LinuxStm32.Mm
