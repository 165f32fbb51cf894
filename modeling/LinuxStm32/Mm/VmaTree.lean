import LinuxStm32.Base.System
import LinuxStm32.Lib.RbTree

/-!
# The mappings of one process, by address

Model of `mm/nommu.c:608-811` and of the calls that change a process's mappings: `split_vma` and
`shrink_vma` (`:1449-1548`), `do_munmap` (`:1556-1627`), `exit_mmap` (`:1645-1663`) and
`do_mremap` (`:1680-1712`). The tree of an `mm_struct` is the one of `lib/rbtree.c` in memory. A
VMA goes by the address of its `vm_rb`, which is at the same offset in every VMA; the linked list
is the list of these addresses. Left out: the prio tree of a file, the protection of pages, and
the tree of the regions with their uses and pages, which `Mm.Nommu` and `Mm.Mmap` follow.
-/

namespace LinuxStm32.Mm.VmaTree

open Base RedBlack Lib

/-- `struct vm_area_struct`; `vmFile` says that `vm_file` is set and `mayShare` is
`VM_MAYSHARE`. -/
structure VmArea where
  vmStart : BitVec 32
  vmEnd : BitVec 32
  vmFile : Bool
  mayShare : Bool
  vmRegion : Ptr
  deriving DecidableEq, Repr

/-- `struct vm_region`. -/
structure VmRegion where
  vmStart : BitVec 32
  vmEnd : BitVec 32
  vmTop : BitVec 32
  deriving DecidableEq, Repr

/-- `struct mm_struct`, with the VMAs and the regions by their addresses. -/
structure MmStruct where
  mmRb : RbMem
  mmap : List Ptr
  mmapCache : Ptr
  mapCount : Int
  vma : Ptr → VmArea
  region : Ptr → VmRegion

/-- Code that works on a process's mappings. -/
abbrev MmM := StateT MmStruct Option

/-- Code that works on the tree. -/
def onRb {α : Type} (x : RbM α) : MmM α := onPart (·.mmRb) (fun s m => { s with mmRb := m }) x

/-- Read the fields of a VMA. -/
def area (p : Ptr) : MmM VmArea := fun s => some (s.vma p, s)

/-- Change the fields of a VMA. -/
def MmStruct.setArea (s : MmStruct) (p : Ptr) (f : VmArea → VmArea) : MmStruct :=
  { s with vma := Function.update s.vma p (f (s.vma p)) }

/-- Change a region. -/
def MmStruct.setRegion (s : MmStruct) (p : Ptr) (f : VmRegion → VmRegion) : MmStruct :=
  { s with region := Function.update s.region p (f (s.region p)) }

/-! ### Adding and deleting -/

/-- `*link`. -/
def RbLink.get : RbLink → RbM Ptr
  | .root => getRoot
  | .child s p => rbChild s p

/-- On which side of `pvma` the way down to the place of `vma` goes on; `none` is `BUG()`. -/
def sideOf (f : Ptr → VmArea) (vma pvma : Ptr) : Option Side :=
  if (f vma).vmStart < (f pvma).vmStart then some .left
  else if (f vma).vmStart > (f pvma).vmStart then some .right
  else if (f vma).vmEnd < (f pvma).vmEnd then some .left
  else if (f vma).vmEnd > (f pvma).vmEnd then some .right
  else if vma < pvma then some .left
  else if vma > pvma then some .right
  else none

/-- One round of `while (*p)`, on `parent` and `p`. -/
def descendRound (vma : Ptr) : Ptr × RbLink → MmM ((Ptr × RbLink) ⊕ (Ptr × RbLink))
  | (parent, p) => do
    let pvma ← onRb (RbLink.get p)
    if pvma = 0#32 then return .inr (parent, p)
    else do
      let s ← get
      let side ← (sideOf s.vma vma pvma : Option Side)
      return .inl (pvma, .child side pvma)

/-- The loop that puts a VMA into the list. -/
def listInsert (f : Ptr → VmArea) (vma : Ptr) : List Ptr → List Ptr
  | [] => [vma]
  | pvma :: rest =>
    if (f pvma).vmStart > (f vma).vmStart then vma :: pvma :: rest
    else if (f pvma).vmStart < (f vma).vmStart then pvma :: listInsert f vma rest
    else if (f pvma).vmEnd < (f vma).vmEnd then vma :: pvma :: rest
    else pvma :: listInsert f vma rest

/-- `add_vma_to_mm`, `mm/nommu.c:610`. -/
def addVmaToMm (fuel : Nat) (vma : Ptr) : MmM Unit := do
  if (← area vma).vmRegion = 0#32 then failure
  else
    modify fun s => { s with mapCount := s.mapCount + 1 }
    let (parent, p) ← loopM (descendRound vma) fuel (0#32, RbLink.root)
    onRb do
      rbLinkNode vma parent p
      rbInsertColor fuel vma
    modify fun s => { s with mmap := listInsert s.vma vma s.mmap }

/-- `delete_vma_from_mm`, `mm/nommu.c:679`. -/
def deleteVmaFromMm (fuel : Nat) (vma : Ptr) : MmM Unit := do
  modify fun s => { s with
    mapCount := s.mapCount - 1
    mmapCache := if s.mmapCache = vma then 0#32 else s.mmapCache }
  onRb (rbErase fuel vma)
  modify fun s => { s with mmap := s.mmap.erase vma }

/-! ### Looking up -/

/-- What the body of a lookup's walk does at a VMA: go on, return `NULL`, or return the VMA. -/
inductive Verdict
  | next
  | stop
  | found
  deriving DecidableEq, Repr

/-- One round of `for (n = rb_first(&mm->mm_rb); n; n = rb_next(n))`. A VMA that is found is
cached. -/
def walkRound (fuel : Nat) (look : VmArea → Verdict) (n : Ptr) : MmM (Ptr ⊕ Ptr) := do
  if n = 0#32 then return .inr 0#32
  else
    match look (← area n) with
    | .next => return .inl (← onRb (rbNext fuel n))
    | .stop => return .inr 0#32
    | .found => do
      modify fun s => { s with mmapCache := n }
      return .inr n

/-- Both lookups check the cache first and then trawl the tree. -/
def lookup (fuel : Nat) (hit : VmArea → Bool) (look : VmArea → Verdict) : MmM Ptr := do
  let s ← get
  if s.mmapCache ≠ 0#32 ∧ hit (s.vma s.mmapCache) then return s.mmapCache
  else loopM (walkRound fuel look) fuel (← onRb (rbFirst fuel))

/-- The body of the walk of `find_vma`. -/
def findLook (addr : BitVec 32) (vma : VmArea) : Verdict :=
  if vma.vmStart > addr then .stop
  else if vma.vmEnd > addr then .found
  else .next

/-- `find_vma`, `mm/nommu.c:735`. -/
def findVma (fuel : Nat) (addr : BitVec 32) : MmM Ptr :=
  lookup fuel (fun vma => vma.vmStart ≤ addr ∧ vma.vmEnd > addr) (findLook addr)

/-- The body of the walk of `find_vma_exact`; `stop` is its `end`. -/
def findExactLook (addr stop : BitVec 32) (vma : VmArea) : Verdict :=
  if vma.vmStart < addr then .next
  else if vma.vmStart > addr then .stop
  else if vma.vmEnd = stop then .found
  else .next

/-- `find_vma_exact`, `mm/nommu.c:783`. -/
def findVmaExact (fuel : Nat) (addr len : BitVec 32) : MmM Ptr :=
  lookup fuel (fun vma => vma.vmStart = addr ∧ vma.vmEnd = addr + len)
    (findExactLook addr (addr + len))

/-! ### Calls -/

/-- `EINVAL`, `ENOMEM`, `EFAULT` and `EPERM`. -/
def EINVAL : Int := 22
@[inherit_doc EINVAL] def ENOMEM : Int := 12
@[inherit_doc EINVAL] def EFAULT : Int := 14
@[inherit_doc EINVAL] def EPERM : Int := 1

/-- What `split_vma` gets from its surroundings: the limit on the number of VMAs and the two new
structures, `NULL` where there is no memory. -/
structure SplitEnv where
  sysctlMaxMapCount : Int
  region : Ptr
  vma : Ptr
  deriving DecidableEq, Repr

/-- Lines 1477-1488: the new VMA and its region are copies, cut to one part. -/
def splitCopy (vma new region : Ptr) (addr : BitVec 32) (newBelow : Bool) (s : MmStruct) :
    MmStruct :=
  let copy := { s with
    mmRb := s.mmRb.modify new fun _ => s.mmRb.node vma
    vma := Function.update s.vma new { s.vma vma with vmRegion := region }
    region := Function.update s.region region (s.region (s.vma vma).vmRegion) }
  if newBelow then
    (copy.setRegion region fun r => { r with vmTop := addr, vmEnd := addr }).setArea new
      fun v => { v with vmEnd := addr }
  else
    (copy.setRegion region fun r => { r with vmStart := addr }).setArea new
      fun v => { v with vmStart := addr }

/-- Lines 1496-1502: the old VMA and its region are cut to the other part. -/
def splitCut (vma : Ptr) (addr : BitVec 32) (newBelow : Bool) (s : MmStruct) : MmStruct :=
  if newBelow then
    (s.setRegion (s.vma vma).vmRegion fun r => { r with vmStart := addr }).setArea vma
      fun v => { v with vmStart := addr }
  else
    (s.setRegion (s.vma vma).vmRegion fun r => { r with vmEnd := addr, vmTop := addr }).setArea vma
      fun v => { v with vmEnd := addr }

/-- `split_vma`, `mm/nommu.c:1449`. -/
def splitVma (fuel : Nat) (env : SplitEnv) (vma : Ptr) (addr : BitVec 32) (newBelow : Bool) :
    MmM Int := do
  let s ← get
  if (s.vma vma).vmFile ∨ s.mapCount ≥ env.sysctlMaxMapCount ∨ env.region = 0#32 ∨
      env.vma = 0#32 then return -ENOMEM
  else
    modify (splitCopy vma env.vma env.region addr newBelow)
    deleteVmaFromMm fuel vma
    modify (splitCut vma addr newBelow)
    addVmaToMm fuel vma
    addVmaToMm fuel env.vma
    return 0

/-- Cut a chunk off a VMA; `start` is `from` in the source. -/
def shrinkCut (vma : Ptr) (start stop : BitVec 32) (s : MmStruct) : MmStruct :=
  s.setArea vma fun v =>
    if start > v.vmStart then { v with vmEnd := start } else { v with vmStart := stop }

/-- Cut it off the region of the VMA. -/
def shrinkRegion (vma : Ptr) (start stop : BitVec 32) (s : MmStruct) : MmStruct :=
  s.setRegion (s.vma vma).vmRegion fun r =>
    if start > r.vmStart then { r with vmTop := start, vmEnd := start }
    else { r with vmStart := stop }

/-- `shrink_vma`, `mm/nommu.c:1515`. -/
def shrinkVma (fuel : Nat) (vma : Ptr) (start stop : BitVec 32) : MmM Int := do
  deleteVmaFromMm fuel vma
  modify (shrinkCut vma start stop)
  addVmaToMm fuel vma
  modify (shrinkRegion vma start stop)
  return 0

/-- One round of the loop of `do_munmap` over the VMAs of a file; it leaves with the VMA to
erase, or with `NULL`. -/
def munmapFileRound (fuel : Nat) (start stop : BitVec 32) (vma : Ptr) : MmM (Ptr ⊕ Ptr) := do
  let v ← area vma
  if start > v.vmStart then return .inr 0#32
  else if stop = v.vmEnd then return .inr vma
  else
    let rb ← onRb (rbNext fuel vma)
    if rb = 0#32 then return .inr 0#32 else return .inl rb

/-- `do_munmap` on VMAs of a file: the last of them is deleted as a whole. -/
def munmapFile (fuel : Nat) (vma : Ptr) (start stop : BitVec 32) : MmM Int := do
  let vma ← loopM (munmapFileRound fuel start stop) fuel vma
  if vma = 0#32 then return -EINVAL
  else
    deleteVmaFromMm fuel vma
    return 0

/-- The end of `do_munmap` on an anonymous VMA that has more than the chunk. -/
def munmapChunk (fuel : Nat) (env : SplitEnv) (vma : Ptr) (start stop : BitVec 32) :
    MmM Int := do
  let v ← area vma
  if start ≠ v.vmStart ∧ stop ≠ v.vmEnd then
    let ret ← splitVma fuel env vma start true
    if ret < 0 then return ret else shrinkVma fuel vma start stop
  else shrinkVma fuel vma start stop

/-- `do_munmap` on an anonymous VMA. -/
def munmapAnon (fuel : Nat) (env : SplitEnv) (vma : Ptr) (start stop : BitVec 32) :
    MmM Int := do
  let v ← area vma
  if start = v.vmStart ∧ stop = v.vmEnd then
    deleteVmaFromMm fuel vma
    return 0
  else if start < v.vmStart ∨ stop > v.vmEnd then return -EINVAL
  else if start &&& 0xfff#32 ≠ 0#32 then return -EINVAL
  else if stop ≠ v.vmEnd ∧ stop &&& 0xfff#32 ≠ 0#32 then return -EINVAL
  else munmapChunk fuel env vma start stop

/-- `do_munmap`, `mm/nommu.c:1556`. -/
def doMunmap (fuel : Nat) (env : SplitEnv) (start len : BitVec 32) : MmM Int := do
  if len = 0#32 then return -EINVAL
  else
    let vma ← findVma fuel start
    if vma = 0#32 then return -EINVAL
    else if (← area vma).vmFile then munmapFile fuel vma start (start + len)
    else munmapAnon fuel env vma start (start + len)

/-- One round of the loop of `exit_mmap`. -/
def exitRound (fuel : Nat) (_ : Unit) : MmM (Unit ⊕ Unit) := do
  match (← get).mmap with
  | [] => return .inr ()
  | vma :: rest =>
    modify fun s => { s with mmap := rest }
    deleteVmaFromMm fuel vma
    return .inl ()

/-- `exit_mmap`, `mm/nommu.c:1645`. -/
def exitMmap (fuel : Nat) : MmM Unit := loopM (exitRound fuel) fuel ()

/-- What `do_mremap` does with the VMA it found. -/
def mremapArea (vma : Ptr) (oldLen newLen : BitVec 32) : MmM (BitVec 32) := do
  let s ← get
  let v := s.vma vma
  let r := s.region v.vmRegion
  if v.vmEnd ≠ v.vmStart + oldLen then return BitVec.ofInt 32 (-EFAULT)
  else if v.mayShare then return BitVec.ofInt 32 (-EPERM)
  else if newLen > r.vmEnd - r.vmStart then return BitVec.ofInt 32 (-ENOMEM)
  else
    set (s.setArea vma fun v => { v with vmEnd := v.vmStart + newLen })
    return v.vmStart

/-- `do_mremap`, `mm/nommu.c:1680`; `fixed` is `MREMAP_FIXED` in the flags. -/
def doMremap (fuel : Nat) (addr oldLen newLen : BitVec 32) (fixed : Bool) (newAddr : BitVec 32) :
    MmM (BitVec 32) := do
  if oldLen = 0#32 ∨ newLen = 0#32 then return BitVec.ofInt 32 (-EINVAL)
  else if addr &&& 0xfff#32 ≠ 0#32 then return BitVec.ofInt 32 (-EINVAL)
  else if fixed ∧ newAddr ≠ addr then return BitVec.ofInt 32 (-EINVAL)
  else
    let vma ← findVmaExact fuel addr oldLen
    if vma = 0#32 then return BitVec.ofInt 32 (-EINVAL) else mremapArea vma oldLen newLen

/-! ### Runs -/

/-- What happens to a process's mappings. `addVmaToMm` is `do_mmap_pgoff` adding a VMA it has
filled in; `setRegion` is what `do_mmap_pgoff` and other processes do to a region. -/
inductive Call
  | addVmaToMm (vma : Ptr) (v : VmArea)
  | deleteVmaFromMm (vma : Ptr)
  | splitVma (env : SplitEnv) (vma : Ptr) (addr : BitVec 32) (newBelow : Bool)
  | shrinkVma (vma : Ptr) (start stop : BitVec 32)
  | doMremap (addr oldLen newLen : BitVec 32) (fixed : Bool) (newAddr : BitVec 32)
  | doMunmap (env : SplitEnv) (start len : BitVec 32)
  | exitMmap
  | setRegion (region : Ptr) (r : VmRegion)
  | findVma (addr : BitVec 32)
  | findVmaExact (addr len : BitVec 32)
  deriving DecidableEq, Repr

/-- Make a call. -/
def Call.run (fuel : Nat) : Call → MmM Unit
  | .addVmaToMm vma v => do
    modify (·.setArea vma fun _ => v)
    VmaTree.addVmaToMm fuel vma
  | .deleteVmaFromMm vma => VmaTree.deleteVmaFromMm fuel vma
  | .splitVma env vma addr newBelow => do
    let _ ← VmaTree.splitVma fuel env vma addr newBelow
  | .shrinkVma vma start stop => do
    let _ ← VmaTree.shrinkVma fuel vma start stop
  | .doMremap addr oldLen newLen fixed newAddr => do
    let _ ← VmaTree.doMremap fuel addr oldLen newLen fixed newAddr
  | .doMunmap env start len => do
    let _ ← VmaTree.doMunmap fuel env start len
  | .exitMmap => VmaTree.exitMmap fuel
  | .setRegion region r => modify (·.setRegion region fun _ => r)
  | .findVma addr => do
    let _ ← VmaTree.findVma fuel addr
  | .findVmaExact addr len => do
    let _ ← VmaTree.findVmaExact fuel addr len

/-- The mappings of a process as `mm_init` leaves them. -/
def MmStruct.Empty (s : MmStruct) : Prop :=
  s.mmRb.rbNode = 0#32 ∧ s.mmap = [] ∧ s.mmapCache = 0#32 ∧ s.mapCount = 0

/-- A process that makes calls, each with a bound on the rounds of its loops. -/
def system : System MmStruct (Nat × Call) where
  init := MmStruct.Empty
  step s c := (c.2.run c.1 s).map (·.2)

end LinuxStm32.Mm.VmaTree
