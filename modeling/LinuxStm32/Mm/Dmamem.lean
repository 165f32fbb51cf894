import LinuxStm32.Base.Block
import LinuxStm32.Base.System
import LinuxStm32.Base.Word

/-!
# The coherent DMA memory pool

`mm/dmamem.c`. The pool hands out page-rounded blocks of one physical area by first fit
and keeps two singly linked lists of descriptors. A list of blocks stands for each linked
list, in link order; all sums and differences of addresses and sizes wrap at 32 bits as the
`caddr_t` and `size_t` arithmetic of the source does. Each `kmalloc` of a descriptor is an
argument that says whether it succeeds.
-/

namespace LinuxStm32.Mm

open Base

/-- `struct dm_dsc`, `mm/dmamem.c:30`, without its link. -/
abbrev DmDsc := Block

/-- The file's static state: the area announced by the boot tag and the two lists. -/
structure Dmamem where
  dmBase : Nat
  dmSzAll : Nat
  dmSzFb : Nat
  lstFree : List DmDsc
  lstUsed : List DmDsc
  deriving DecidableEq, Repr

/-- `dm_init`, `mm/dmamem.c:72`: one free block behind the framebuffer part of the area.
Without a boot tag, or when the descriptor cannot be allocated, the free list stays empty. -/
def dmInit (dmBase dmSzAll dmSzFb : Nat) (kmallocOk : Bool) : Int × Dmamem :=
  let s : Dmamem := ⟨dmBase, dmSzAll, dmSzFb, [], []⟩
  if dmSzAll = 0 then (0, s)
  else if kmallocOk = false then (-12, s)
  else (0, { s with lstFree := [⟨wadd dmBase dmSzFb, wsub dmSzAll dmSzFb⟩] })

/-- Bytes taken by a request, `count * PAGE_SIZE`; `mm/dmamem.c:146`. -/
def requestSize (size : Nat) : Nat :=
  let count := wadd size (pageSize - 1) / pageSize
  wmul count pageSize

/-- The alignment a request is served with; `mm/dmamem.c:152–155`. -/
def requestAlign (align : Nat) : Nat :=
  let align := if align = 0 then pageSize else align
  if align % pageSize ≠ 0 then alignDown (wadd align (pageSize - 1)) pageSize else align

/-- First aligned address of a free block, `abase`; `mm/dmamem.c:163`. -/
def alignedBase (dm : DmDsc) (align : Nat) : Nat :=
  wmul (wsub (wadd dm.base align) 1 / align) align

/-- The fit test of the first-fit search; `mm/dmamem.c:166`. -/
def fits (align need : Nat) (dm : DmDsc) : Bool :=
  wadd (alignedBase dm align) need ≤ wadd dm.base dm.size

/-- Carve a request out of the free block `dm`: the free blocks that replace it and the
block that becomes used; `mm/dmamem.c:189–220`. -/
def carve (align need : Nat) (dm : DmDsc) : List DmDsc × DmDsc :=
  let abase := alignedBase dm align
  let split := wadd (wsub abase dm.base) need < dm.size
  let adm := if abase ≠ dm.base then [⟨dm.base, wsub abase dm.base⟩] else []
  let dm := if abase ≠ dm.base then ⟨abase, wsub dm.size (wsub abase dm.base)⟩ else dm
  if split then (adm ++ [⟨wadd dm.base need, wsub dm.size need⟩], ⟨dm.base, need⟩)
  else (adm, dm)

/-- `dmamem_alloc`, `mm/dmamem.c:140`. `ndmOk` and `admOk` are the outcomes of the two
descriptor allocations, which are made before the lists change. -/
def dmamemAlloc (s : Dmamem) (size align : Nat) (ndmOk admOk : Bool) : Option Nat × Dmamem :=
  let need := requestSize size
  let align := requestAlign align
  match s.lstFree.dropWhile (fun dm => !fits align need dm) with
  | [] => (none, s)
  | dm :: post =>
    let pre := s.lstFree.takeWhile (fun dm => !fits align need dm)
    let abase := alignedBase dm align
    if wadd (wsub abase dm.base) need < dm.size ∧ ndmOk = false then (none, s)
    else if abase ≠ dm.base ∧ admOk = false then (none, s)
    else
      let cut := carve align need dm
      (some cut.2.base, { s with
        lstFree := pre ++ cut.1 ++ post
        lstUsed := cut.2 :: s.lstUsed })

/-- Join `dm` with the free block after it when they touch; `mm/dmamem.c:275–281`. -/
def joinNext (dm : DmDsc) : List DmDsc → List DmDsc
  | [] => [dm]
  | next :: post =>
    if wadd dm.base dm.size = next.base then ⟨dm.base, wadd dm.size next.size⟩ :: post
    else dm :: next :: post

/-- Join the free block before the insertion point with the inserted one when they touch;
`mm/dmamem.c:283–288`. -/
def joinPrev (pre post : List DmDsc) : List DmDsc :=
  match pre.getLast?, post with
  | some prev, dm :: rest =>
    if wadd prev.base prev.size = dm.base then
      pre.dropLast ++ ⟨prev.base, wadd prev.size dm.size⟩ :: rest
    else pre ++ dm :: rest
  | _, _ => pre ++ post

/-- `dmamem_free`, `mm/dmamem.c:234`: an unknown address changes nothing. -/
def dmamemFree (s : Dmamem) (base : Nat) : Dmamem :=
  match s.lstUsed.find? (fun dm => dm.base == base) with
  | none => s
  | some dm =>
    let pre := s.lstFree.takeWhile (fun f => decide (f.base < base))
    let post := s.lstFree.dropWhile (fun f => decide (f.base < base))
    { s with
      lstFree := joinPrev pre (joinNext dm post)
      lstUsed := s.lstUsed.eraseP (fun dm => dm.base == base) }

/-- One call into the pool. The size and address words are arbitrary; the alignment is the
only one `dma_alloc_coherent` passes, `arch/arm/mm/dma-mapping.c:344`. -/
inductive DmCall
  | alloc (size : UInt32) (ndmOk admOk : Bool)
  | free (base : UInt32)
  deriving DecidableEq, Repr

/-- The pool after one call. -/
def dmStep (s : Dmamem) : DmCall → Dmamem
  | .alloc size ndmOk admOk => (dmamemAlloc s size.toNat 0 ndmOk admOk).2
  | .free base => dmamemFree s base.toNat

/-- A page-aligned area inside the address space whose framebuffer part is not larger
than the whole. -/
structure AreaOk (dmBase dmSzAll dmSzFb : Nat) : Prop where
  aligned : dmBase % pageSize = 0
  szAll : dmSzAll < 4294967296
  szFb : dmSzFb ≤ dmSzAll
  inside : dmBase + dmSzAll ≤ 4294967296

/-- All runs of the pool from a successful `dm_init`. -/
def dmSystem : System Dmamem DmCall where
  init s := ∃ dmBase dmSzAll dmSzFb, AreaOk dmBase dmSzAll dmSzFb ∧
    s = (dmInit dmBase dmSzAll dmSzFb true).2
  step s c := some (dmStep s c)

end LinuxStm32.Mm
