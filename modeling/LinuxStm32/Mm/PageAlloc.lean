import Mathlib.Logic.Function.Basic
import LinuxStm32.Base.System
import LinuxStm32.Base.Word
import Mathlib.Algebra.Order.Ring.Int

/-!
# The buddy allocator

Model of `mm/page_alloc.c:355–489, 654–932`: the free lists of a zone by order and migrate type,
the marks of the first pages of free blocks, and the functions that take blocks from the lists
and give them back. Pages are known by their frame numbers; a zone is a range of them.

A page's list link is part of the page, so unlinking a page takes it out of whichever list holds
it. `pageOrder p = some o` stands for `PageBuddy(p)` with order `o` in `page_private`. `free` is
a history of the calls that the functions do not read: the pages given back and not taken since.
-/

namespace LinuxStm32.Mm

open Base

/-- `MIGRATE_UNMOVABLE` and so on; `include/linux/mmzone.h:38–44`. -/
inductive MigrateType
  | unmovable
  | reclaimable
  | movable
  | reserve
  | isolate
  deriving DecidableEq, Repr

/-- All migrate types. -/
def MigrateType.all : List MigrateType := [.unmovable, .reclaimable, .movable, .reserve, .isolate]

/-- `fallbacks`, `mm/page_alloc.c:746`; entries the source leaves out are zero. -/
def fallbacks : MigrateType → List MigrateType
  | .unmovable => [.reclaimable, .movable, .reserve, .unmovable]
  | .reclaimable => [.unmovable, .movable, .reserve, .unmovable]
  | .movable => [.reclaimable, .unmovable, .reserve, .unmovable]
  | .reserve => [.reserve, .reserve, .reserve, .unmovable]
  | .isolate => [.unmovable, .unmovable, .unmovable, .unmovable]

/-- What a zone is: a range of pages; `MAX_ORDER` and `pageblock_order`. -/
structure ZoneRange where
  zoneStartPfn : Nat
  spannedPages : Nat
  maxOrder : Nat
  pageblockOrder : Nat
  maxOrder_pos : 0 < maxOrder

/-- The page belongs to the zone. -/
def ZoneRange.Has (zr : ZoneRange) (pfn : Nat) : Prop :=
  zr.zoneStartPfn ≤ pfn ∧ pfn < zr.zoneStartPfn + zr.spannedPages

instance (zr : ZoneRange) (pfn : Nat) : Decidable (zr.Has pfn) :=
  inferInstanceAs (Decidable (_ ∧ _))

/-- The free areas of a zone and the marks of its pages. -/
structure Zone where
  freeList : Nat → MigrateType → List Nat
  nrFree : Nat → Int
  pageOrder : Nat → Option Nat
  pageblockType : Nat → MigrateType
  free : Nat → Bool

/-! ### Lists and marks -/

/-- `list_add` to a free list. -/
def listAdd (z : Zone) (page order : Nat) (t : MigrateType) : Zone :=
  { z with freeList := fun o u =>
      if o = order ∧ u = t then page :: z.freeList o u else z.freeList o u }

/-- `list_del`. -/
def listDel (z : Zone) (page : Nat) : Zone :=
  { z with freeList := fun o u => (z.freeList o u).filter (· ≠ page) }

/-- `set_page_order`, `mm/page_alloc.c:355`. -/
def setPageOrder (z : Zone) (page order : Nat) : Zone :=
  { z with pageOrder := Function.update z.pageOrder page (some order) }

/-- `rmv_page_order`, `mm/page_alloc.c:361`. -/
def rmvPageOrder (z : Zone) (page : Nat) : Zone :=
  { z with pageOrder := Function.update z.pageOrder page none }

/-- Change `nr_free` of an order. -/
def addNrFree (z : Zone) (order : Nat) (n : Int) : Zone :=
  { z with nrFree := Function.update z.nrFree order (z.nrFree order + n) }

/-! ### Giving back -/

/-- `__page_find_buddy`, `mm/page_alloc.c:385`. -/
def pageFindBuddy (page pageIdx order : Nat) : Nat := page + (pageIdx ^^^ 2 ^ order) - pageIdx

/-- `__find_combined_index`, `mm/page_alloc.c:393`. -/
def findCombinedIndex (pageIdx order : Nat) : Nat := andNot pageIdx (2 ^ order)

/-- `page_is_buddy`, `mm/page_alloc.c:411`. -/
def pageIsBuddy (zr : ZoneRange) (z : Zone) (page buddy order : Nat) : Bool :=
  decide (zr.Has page ↔ zr.Has buddy) && z.pageOrder buddy == some order

/-- The end of `__free_one_page`: the merged block is put on its list. -/
def freeMerged (z : Zone) (page order : Nat) (t : MigrateType) : Zone :=
  addNrFree (listAdd (setPageOrder z page order) page order t) order 1

/-- The merging loop of `__free_one_page`. -/
def freeOnePageLoop (zr : ZoneRange) (t : MigrateType) : Nat → Nat → Nat → Nat → Zone → Zone
  | 0, page, _, order, z => freeMerged z page order t
  | fuel + 1, page, pageIdx, order, z =>
    if order + 1 < zr.maxOrder then
      let buddy := pageFindBuddy page pageIdx order
      if pageIsBuddy zr z page buddy order then
        let combinedIdx := findCombinedIndex pageIdx order
        freeOnePageLoop zr t fuel (page + combinedIdx - pageIdx) combinedIdx (order + 1)
          (rmvPageOrder (addNrFree (listDel z buddy) order (-1)) buddy)
      else freeMerged z page order t
    else freeMerged z page order t

/-- `__free_one_page`, `mm/page_alloc.c:451`. A compound page whose parts do not fit together is
not freed. -/
def freeOnePage (zr : ZoneRange) (z : Zone) (page order : Nat) (t : MigrateType)
    (badCompound : Bool) : Zone :=
  if badCompound then z
  else freeOnePageLoop zr t zr.maxOrder page (page &&& (2 ^ zr.maxOrder - 1)) order z

/-! ### Taking -/

/-- `expand`, `mm/page_alloc.c:654`: the upper halves of a block go back to the lists. -/
def expand (page low : Nat) (t : MigrateType) : Nat → Zone → Zone
  | 0, z => z
  | high + 1, z =>
    if low < high + 1 then
      expand page low t high (setPageOrder
        (addNrFree (listAdd z (page + 2 ^ high) high t) high 1) (page + 2 ^ high) high)
    else z

/-- The loop of `__rmqueue_smallest`. -/
def rmqueueSmallestLoop (order : Nat) (t : MigrateType) : Nat → Nat → Zone → Option (Nat × Zone)
  | 0, _, _ => none
  | n + 1, current, z =>
    match z.freeList current t with
    | [] => rmqueueSmallestLoop order t n (current + 1) z
    | page :: _ => some (page, expand page order t current
        (addNrFree (rmvPageOrder (listDel z page) page) current (-1)))

/-- `__rmqueue_smallest`, `mm/page_alloc.c:716`. -/
def rmqueueSmallest (zr : ZoneRange) (z : Zone) (order : Nat) (t : MigrateType) :
    Option (Nat × Zone) :=
  rmqueueSmallestLoop order t (zr.maxOrder - order) order z

/-- The loop of `move_freepages`, `mm/page_alloc.c:758`, over at most `n` pages; with the number
of pages moved. -/
def moveFreepages (t : MigrateType) : Nat → Nat → Nat → Nat → Zone → Zone × Nat
  | 0, _, _, moved, z => (z, moved)
  | n + 1, page, endPage, moved, z =>
    if page ≤ endPage then
      match z.pageOrder page with
      | none => moveFreepages t n (page + 1) endPage moved z
      | some order => moveFreepages t n (page + 2 ^ order) endPage (moved + 2 ^ order)
          (listAdd (listDel z page) page order t)
    else (z, moved)

/-- `move_freepages_block`, `mm/page_alloc.c:802`. -/
def moveFreepagesBlock (zr : ZoneRange) (z : Zone) (page : Nat) (t : MigrateType) : Zone × Nat :=
  let startPfn := alignDown page (2 ^ zr.pageblockOrder)
  let endPfn := startPfn + 2 ^ zr.pageblockOrder - 1
  let startPage := if startPfn < zr.zoneStartPfn then page else startPfn
  if zr.zoneStartPfn + zr.spannedPages ≤ endPfn then (z, 0)
  else moveFreepages t (2 ^ zr.pageblockOrder) startPage endPfn 0 z

/-- `set_pageblock_migratetype`, `mm/page_alloc.c:174`: without an MMU every pageblock is
unmovable. -/
def setPageblockMigratetype (zr : ZoneRange) (z : Zone) (page : Nat) : Zone :=
  { z with
    pageblockType := Function.update z.pageblockType (page / 2 ^ zr.pageblockOrder) .unmovable }

/-- The loop of `change_pageblock_range`, `mm/page_alloc.c:823`. -/
def changePageblockRange (zr : ZoneRange) : Nat → Nat → Zone → Zone
  | 0, _, z => z
  | n + 1, page, z =>
    changePageblockRange zr n (page + 2 ^ zr.pageblockOrder) (setPageblockMigratetype zr z page)

/-- The body of `__rmqueue_fallback` once it has found a block; `mm/page_alloc.c:858–895`. -/
def rmqueueFallbackTake (zr : ZoneRange) (z : Zone) (order current : Nat)
    (start t : MigrateType) (mobilityDisabled : Bool) (page : Nat) : Zone :=
  let z := addNrFree z current (-1)
  let claim := zr.pageblockOrder / 2 ≤ current ∨ start = .reclaimable ∨ mobilityDisabled = true
  let moved := if claim then moveFreepagesBlock zr z page start else (z, 0)
  let z := if claim ∧ (2 ^ (zr.pageblockOrder - 1) ≤ moved.2 ∨ mobilityDisabled = true)
    then setPageblockMigratetype zr moved.1 page else moved.1
  let z := rmvPageOrder (listDel z page) page
  let z := if zr.pageblockOrder ≤ current
    then changePageblockRange zr (2 ^ (current - zr.pageblockOrder)) page z else z
  expand page order (if claim then start else t) current z

/-- The loops of `__rmqueue_fallback`, from the largest order down. -/
def rmqueueFallbackLoop (zr : ZoneRange) (order : Nat) (start : MigrateType)
    (mobilityDisabled : Bool) : Nat → Zone → Option (Nat × Zone)
  | 0, _ => none
  | current + 1, z =>
    if order ≤ current then
      match (fallbacks start).find? fun t => t ≠ .reserve ∧ z.freeList current t ≠ [] with
      | none => rmqueueFallbackLoop zr order start mobilityDisabled current z
      | some t => (z.freeList current t).head?.map fun page =>
          (page, rmqueueFallbackTake zr z order current start t mobilityDisabled page)
    else none

/-- `__rmqueue_fallback`, `mm/page_alloc.c:836`. -/
def rmqueueFallback (zr : ZoneRange) (z : Zone) (order : Nat) (start : MigrateType)
    (mobilityDisabled : Bool) : Option (Nat × Zone) :=
  rmqueueFallbackLoop zr order start mobilityDisabled zr.maxOrder z

/-- `__rmqueue`, `mm/page_alloc.c:908`. -/
def rmqueue (zr : ZoneRange) (z : Zone) (order : Nat) (t : MigrateType)
    (mobilityDisabled : Bool) : Option (Nat × Zone) :=
  match rmqueueSmallest zr z order t with
  | some r => some r
  | none =>
    if t = .reserve then none
    else
      match rmqueueFallback zr z order t mobilityDisabled with
      | some r => some r
      | none => rmqueueSmallest zr z order .reserve

/-! ### Runs -/

/-- A call, with `page_group_by_mobility_disabled` and the check of compound pages. -/
inductive BuddyAct
  | rmqueue (order : Nat) (t : MigrateType) (mobilityDisabled : Bool)
  | free (page order : Nat) (t : MigrateType) (badCompound : Bool)
  deriving DecidableEq, Repr

/-- The pages of block `page` of an order. -/
def inBlock (page order q : Nat) : Bool := decide (page ≤ q) && decide (q < page + 2 ^ order)

/-- One call. What is given back is a naturally aligned block of pages of the zone none of which
is free. -/
def buddyStep (zr : ZoneRange) (z : Zone) : BuddyAct → Option Zone
  | .rmqueue order t mobilityDisabled =>
    match rmqueue zr z order t mobilityDisabled with
    | none => some z
    | some r => some { r.2 with free := fun q => z.free q && !inBlock r.1 order q }
  | .free page order t badCompound =>
    if order < zr.maxOrder ∧ page % 2 ^ order = 0 ∧
        ∀ k < 2 ^ order, zr.Has (page + k) ∧ z.free (page + k) = false then
      let z' := freeOnePage zr z page order t badCompound
      some { z' with free := fun q => z.free q || (!badCompound && inBlock page order q) }
    else none

/-- The zone as it is set up: all lists empty, all pages in the hands of the boot code. -/
def Zone.Fresh (z : Zone) : Prop :=
  (∀ o t, z.freeList o t = []) ∧ (∀ o, z.nrFree o = 0) ∧ (∀ p, z.pageOrder p = none) ∧
    ∀ p, z.free p = false

/-- All sequences of calls. -/
def buddySystem (zr : ZoneRange) : System Zone BuddyAct where
  init := Zone.Fresh
  step := buddyStep zr

end LinuxStm32.Mm
