import Mathlib.Data.List.Basic
import Mathlib.Data.Nat.Bitwise
import Mathlib.Logic.Function.Basic

/-!
# FAT entries: reading, allocating and freeing clusters

`fs/fat/fatent.c:24–621` with the constants of `include/linux/msdos_fs.h`. A buffer is named by its
block number, and all buffers together are `FatDisk`; a pointer into a buffer is a block and an
offset. What the environment decides is in `FatIo`: whether a block can be read or got, and what
waiting for a write returns. Reference counts of buffers, `s_dirt` and the discard requests for
freed clusters are left out.
-/

namespace LinuxStm32.Fs.Fat

/-- `sbi->fat_bits`. -/
inductive FatBits
  | fat12
  | fat16
  | fat32
  deriving DecidableEq

/-- The bytes of all buffers, by block number and offset. -/
abbrev FatDisk := Nat → Nat → UInt8

/-- A pointer into the data of a buffer. -/
@[ext]
structure BufPtr where
  block : Nat
  off : Nat
  deriving DecidableEq

def BufPtr.add (p : BufPtr) (i : Nat) : BufPtr := ⟨p.block, p.off + i⟩

/-- `NULL`: no FAT is in the boot sector. -/
def BufPtr.null : BufPtr := ⟨0, 0⟩

namespace FatDisk

def get (d : FatDisk) (p : BufPtr) : Nat := (d p.block p.off).toNat

/-- Store the low byte of `v`. -/
def set (d : FatDisk) (p : BufPtr) (v : Nat) : FatDisk := fun b o =>
  if b = p.block ∧ o = p.off then UInt8.ofNat v else d b o

/-- `le16_to_cpu`. -/
def le16 (d : FatDisk) (p : BufPtr) : Nat := d.get p + 256 * d.get (p.add 1)

/-- `le32_to_cpu`. -/
def le32 (d : FatDisk) (p : BufPtr) : Nat :=
  d.get p + 256 * d.get (p.add 1) + 65536 * d.get (p.add 2) + 16777216 * d.get (p.add 3)

/-- Store `cpu_to_le16(v)`. -/
def setLe16 (d : FatDisk) (p : BufPtr) (v : Nat) : FatDisk :=
  (d.set p v).set (p.add 1) (v / 256)

/-- Store `cpu_to_le32(v)`. -/
def setLe32 (d : FatDisk) (p : BufPtr) (v : Nat) : FatDisk :=
  (((d.set p v).set (p.add 1) (v / 256)).set (p.add 2) (v / 65536)).set (p.add 3) (v / 16777216)

end FatDisk

/-- What does not change of the super block and of `struct msdos_sb_info`. -/
structure FatSb where
  fatBits : FatBits
  blocksizeBits : Nat
  fatStart : Nat
  fatLength : Nat
  fats : Nat
  maxCluster : Nat
  /-- `MS_SYNCHRONOUS`. -/
  synchronous : Bool

/-- `s_blocksize`. -/
def FatSb.blocksize (sb : FatSb) : Nat := 2 ^ sb.blocksizeBits

/-- The buffers and the counters of `struct msdos_sb_info`. -/
structure FatState where
  disk : FatDisk
  prevFree : Nat
  /-- `-1` if unknown. -/
  freeClusters : Int
  freeClusValid : Bool

/-- The answers of the block layer. -/
structure FatIo where
  /-- `sb_bread` of the block succeeds. -/
  bread : Nat → Bool
  /-- `sb_getblk` of the block succeeds. -/
  getblk : Nat → Bool
  /-- `sync_dirty_buffer`. -/
  syncDirtyBuffer : Nat → Int
  /-- `fat_sync_bhs`. -/
  syncBhs : List Nat → Int

/-- `struct fat_entry`: `bhs` has `nr_bhs` elements; `p` is `ent12_p[0]`, `ent16_p` or `ent32_p`,
and `q` is `ent12_p[1]`. -/
structure FatEntry where
  entry : Nat
  bhs : List Nat
  p : BufPtr
  q : BufPtr

/-- `fatent_init`. -/
def FatEntry.init : FatEntry := ⟨0, [], .null, .null⟩

/-- `fatent_set_entry`. -/
def FatEntry.setEntry (fe : FatEntry) (entry : Nat) : FatEntry :=
  { fe with
    entry := entry
    p := .null }

/-- `fatent_brelse`. -/
def FatEntry.brelse (fe : FatEntry) : FatEntry :=
  { fe with
    bhs := []
    p := .null }

def fatStartEnt : Nat := 2
def fatEntFree : Nat := 0
def fatEntEof : Nat := 0x0fffffff
def eio : Int := 5
def enomem : Int := 12
def enospc : Int := 28

/-- `MAX_BUF_PER_PAGE`. -/
def maxBufPerPage : Nat := 8

/-! ### The three kinds of table -/

/-- `struct fatent_operations`. -/
structure FatentOperations where
  /-- Offset and block number of an entry. -/
  entBlocknr : FatSb → Nat → Nat × Nat
  entSetPtr : FatEntry → Nat → FatEntry
  entBread : FatSb → FatIo → FatEntry → Nat → Nat → Except Int FatEntry
  entGet : FatDisk → FatEntry → Nat
  entPut : FatDisk → FatEntry → Nat → FatDisk
  entNext : FatSb → FatEntry → Bool × FatEntry

def fat12EntBlocknr (sb : FatSb) (entry : Nat) : Nat × Nat :=
  let bytes := entry + (entry >>> 1)
  (bytes &&& (sb.blocksize - 1), sb.fatStart + (bytes >>> sb.blocksizeBits))

/-- `fat_ent_blocknr` with `fatent_shift`. -/
def fatEntBlocknr (fatentShift : Nat) (sb : FatSb) (entry : Nat) : Nat × Nat :=
  let bytes := entry <<< fatentShift
  (bytes &&& (sb.blocksize - 1), sb.fatStart + (bytes >>> sb.blocksizeBits))

def fat12EntSetPtr (fe : FatEntry) (offset : Nat) : FatEntry :=
  match fe.bhs with
  | [b] => { fe with
      p := ⟨b, offset⟩
      q := ⟨b, offset + 1⟩ }
  | b :: b' :: _ => { fe with
      p := ⟨b, offset⟩
      q := ⟨b', 0⟩ }
  | [] => fe

/-- `fat16_ent_set_ptr` and `fat32_ent_set_ptr`. -/
def fatEntSetPtr (fe : FatEntry) (offset : Nat) : FatEntry :=
  match fe.bhs with
  | b :: _ => { fe with p := ⟨b, offset⟩ }
  | [] => fe

def fat12EntBread (sb : FatSb) (io : FatIo) (fe : FatEntry) (offset blocknr : Nat) :
    Except Int FatEntry :=
  if io.bread blocknr = false then .error (-eio)
  else if offset + 1 < sb.blocksize then .ok (fat12EntSetPtr { fe with bhs := [blocknr] } offset)
  else if io.bread (blocknr + 1) = false then .error (-eio)
  else .ok (fat12EntSetPtr { fe with bhs := [blocknr, blocknr + 1] } offset)

def fatEntBread (_sb : FatSb) (io : FatIo) (fe : FatEntry) (offset blocknr : Nat) :
    Except Int FatEntry :=
  if io.bread blocknr = false then .error (-eio)
  else .ok (fatEntSetPtr { fe with bhs := [blocknr] } offset)

/-- A number at or above `bad` ends a chain. -/
def endIfBad (bad next : Nat) : Nat := if bad ≤ next then fatEntEof else next

/-- The end of a chain as it is stored. -/
def storedEof (eof new : Nat) : Nat := if new = fatEntEof then eof else new

def fat12EntGet (d : FatDisk) (fe : FatEntry) : Nat :=
  let next := if fe.entry &&& 1 ≠ 0 then (d.get fe.p >>> 4) ||| (d.get fe.q <<< 4)
    else (d.get fe.q <<< 8) ||| d.get fe.p
  endIfBad 0xff7 (next &&& 0x0fff)

def fat16EntGet (d : FatDisk) (fe : FatEntry) : Nat := endIfBad 0xfff7 (d.le16 fe.p)

def fat32EntGet (d : FatDisk) (fe : FatEntry) : Nat :=
  endIfBad 0x0ffffff7 (d.le32 fe.p &&& 0x0fffffff)

def fat12EntPut (d : FatDisk) (fe : FatEntry) (new : Nat) : FatDisk :=
  let new := storedEof 0xfff new
  if fe.entry &&& 1 ≠ 0 then
    let d := d.set fe.p ((new <<< 4) ||| (d.get fe.p &&& 0x0f))
    d.set fe.q (new >>> 4)
  else
    let d := d.set fe.p (new &&& 0xff)
    d.set fe.q ((d.get fe.q &&& 0xf0) ||| (new >>> 8))

def fat16EntPut (d : FatDisk) (fe : FatEntry) (new : Nat) : FatDisk :=
  d.setLe16 fe.p (storedEof 0xffff new)

def fat32EntPut (d : FatDisk) (fe : FatEntry) (new : Nat) : FatDisk :=
  d.setLe32 fe.p (storedEof 0x0fffffff new ||| (d.le32 fe.p &&& 0xf0000000))

def fat12EntNext (sb : FatSb) (fe : FatEntry) : Bool × FatEntry :=
  let nextp := fe.q.off + 1 + (fe.entry &&& 1)
  let fe := { fe with entry := fe.entry + 1 }
  match fe.bhs with
  | _ :: b' :: _ => (true, { fe with
      bhs := [b']
      p := ⟨fe.q.block, nextp - 1⟩
      q := ⟨fe.q.block, nextp⟩ })
  | _ =>
    if nextp < sb.blocksize - 1 then (true, { fe with
      p := ⟨fe.q.block, nextp - 1⟩
      q := ⟨fe.q.block, nextp⟩ })
    else (false, { fe with
      p := .null
      q := .null })

/-- `fat16_ent_next` and `fat32_ent_next` for entries of `size` bytes. -/
def fatEntNextOfSize (size : Nat) (sb : FatSb) (fe : FatEntry) : Bool × FatEntry :=
  let fe := { fe with entry := fe.entry + 1 }
  if fe.p.off < sb.blocksize - size then (true, { fe with p := fe.p.add size })
  else (false, { fe with p := .null })

def fat12Ops : FatentOperations where
  entBlocknr := fat12EntBlocknr
  entSetPtr := fat12EntSetPtr
  entBread := fat12EntBread
  entGet := fat12EntGet
  entPut := fat12EntPut
  entNext := fat12EntNext

def fat16Ops : FatentOperations where
  entBlocknr := fatEntBlocknr 1
  entSetPtr := fatEntSetPtr
  entBread := fatEntBread
  entGet := fat16EntGet
  entPut := fat16EntPut
  entNext := fatEntNextOfSize 2

def fat32Ops : FatentOperations where
  entBlocknr := fatEntBlocknr 2
  entSetPtr := fatEntSetPtr
  entBread := fatEntBread
  entGet := fat32EntGet
  entPut := fat32EntPut
  entNext := fatEntNextOfSize 4

/-- `fat_ent_access_init`. -/
def FatSb.ops (sb : FatSb) : FatentOperations :=
  match sb.fatBits with
  | .fat12 => fat12Ops
  | .fat16 => fat16Ops
  | .fat32 => fat32Ops

/-! ### Reading an entry -/

/-- `fat_ent_update_ptr`; `none` if the buffers of `fe` do not include the entry. -/
def fatEntUpdatePtr (sb : FatSb) (fe : FatEntry) (offset blocknr : Nat) : Option FatEntry :=
  match fe.bhs with
  | [] => none
  | b :: bs =>
    if b ≠ blocknr then none
    else if sb.fatBits = .fat12 then
      if offset + 1 < sb.blocksize then some (sb.ops.entSetPtr { fe with bhs := [b] } offset)
      else if bs.head? ≠ some (blocknr + 1) then none
      else some (sb.ops.entSetPtr fe offset)
    else some (sb.ops.entSetPtr fe offset)

/-- `fat_ent_read`. -/
def fatEntRead (sb : FatSb) (io : FatIo) (d : FatDisk) (fe : FatEntry) (entry : Nat) :
    Except Int (Nat × FatEntry) :=
  if entry < fatStartEnt ∨ sb.maxCluster ≤ entry then .error (-eio)
  else
    let fe := fe.setEntry entry
    let (offset, blocknr) := sb.ops.entBlocknr sb entry
    match fatEntUpdatePtr sb fe offset blocknr with
    | some fe => .ok (sb.ops.entGet d fe, fe)
    | none =>
      match sb.ops.entBread sb io fe.brelse offset blocknr with
      | .error err => .error err
      | .ok fe => .ok (sb.ops.entGet d fe, fe)

/-- `fat_ent_next`. -/
def fatEntNext (sb : FatSb) (fe : FatEntry) : Bool × FatEntry :=
  let r := sb.ops.entNext sb fe
  (r.1 && decide (r.2.entry < sb.maxCluster), r.2)

/-- `fat_ent_read_block`. -/
def fatEntReadBlock (sb : FatSb) (io : FatIo) (fe : FatEntry) : Except Int FatEntry :=
  let (offset, blocknr) := sb.ops.entBlocknr sb fe.entry
  sb.ops.entBread sb io fe.brelse offset blocknr

/-! ### The other copies of the table -/

/-- `memcpy` of a whole buffer. -/
def FatDisk.copyBlock (d : FatDisk) (dst src : Nat) : FatDisk := fun b o =>
  if b = dst then d src o else d b o

/-- The loops of `fat_mirror_bhs`, over pairs of a copy and a buffer. -/
def mirrorLoop (sb : FatSb) (io : FatIo) : List (Nat × Nat) → FatDisk → Int × FatDisk
  | [], d => (0, d)
  | (copy, b) :: rest, d =>
    let dst := sb.fatLength * copy + b
    if io.getblk dst = false then (-enomem, d)
    else
      let d := d.copyBlock dst b
      if sb.synchronous ∧ io.syncDirtyBuffer dst ≠ 0 then (io.syncDirtyBuffer dst, d)
      else mirrorLoop sb io rest d

/-- `fat_mirror_bhs`. -/
def fatMirrorBhs (sb : FatSb) (io : FatIo) (bhs : List Nat) (d : FatDisk) : Int × FatDisk :=
  mirrorLoop sb io ((List.range' 1 (sb.fats - 1)).flatMap fun copy => bhs.map fun b => (copy, b)) d

/-- `fat_sync_bhs` if asked for, then `fat_mirror_bhs`. -/
def syncAndMirror (sb : FatSb) (io : FatIo) (sync : Bool) (bhs : List Nat) (d : FatDisk) :
    Int × FatDisk :=
  if sync ∧ io.syncBhs bhs ≠ 0 then (io.syncBhs bhs, d) else fatMirrorBhs sb io bhs d

/-- `fat_collect_bhs`. -/
def fatCollectBhs (bhs : List Nat) (fe : FatEntry) : List Nat :=
  fe.bhs.foldl (fun acc b => if b ∈ acc then acc else acc ++ [b]) bhs

/-! ### Freeing a chain -/

/-- An entry becomes free. -/
def FatState.freeEntry (s : FatState) (sb : FatSb) (fe : FatEntry) : FatState :=
  { s with
    disk := sb.ops.entPut s.disk fe fatEntFree
    freeClusters := if s.freeClusters ≠ -1 then s.freeClusters + 1 else s.freeClusters }

/-- The loop of `fat_free_clusters`; `none` if `fuel` runs out. -/
def freeLoop (sb : FatSb) (io : FatIo) :
    (fuel : Nat) → FatState → FatEntry → List Nat → Nat → Option (Int × FatState)
  | 0, _, _, _, _ => none
  | fuel + 1, s, fe, bhs, cluster =>
    match fatEntRead sb io s.disk fe cluster with
    | .error err => some (err, s)
    | .ok (next, fe) =>
      if next = fatEntFree then some (-eio, s)
      else
        let s := s.freeEntry sb fe
        let r := if maxBufPerPage < bhs.length + fe.bhs.length then
            syncAndMirror sb io sb.synchronous bhs s.disk
          else (0, s.disk)
        let s := { s with disk := r.2 }
        if r.1 ≠ 0 then some (r.1, s)
        else
          let bhs := if maxBufPerPage < bhs.length + fe.bhs.length then [] else bhs
          let bhs := fatCollectBhs bhs fe
          if next ≠ fatEntEof then freeLoop sb io fuel s fe bhs next
          else
            let r := syncAndMirror sb io sb.synchronous bhs s.disk
            some (r.1, { s with disk := r.2 })

/-- `fat_free_clusters`: an entry that is read again is free, so `max_cluster` rounds are enough. -/
def fatFreeClusters (sb : FatSb) (io : FatIo) (s : FatState) (cluster : Nat) :
    Option (Int × FatState) :=
  freeLoop sb io sb.maxCluster s .init [] cluster

/-! ### Allocating a chain -/

/-- The variables of `fat_alloc_clusters`. -/
structure AllocState where
  fat : FatState
  fatent : FatEntry
  prevEnt : FatEntry
  bhs : List Nat
  cluster : List Nat
  count : Nat

/-- A free entry is put at the end of the chain. -/
def AllocState.link (st : AllocState) (sb : FatSb) : AllocState :=
  let entry := st.fatent.entry
  let disk := sb.ops.entPut st.fat.disk st.fatent fatEntEof
  let disk := if st.prevEnt.bhs.length ≠ 0 then sb.ops.entPut disk st.prevEnt entry else disk
  { st with
    fat := { st.fat with
      disk := disk
      prevFree := entry
      freeClusters := if st.fat.freeClusters ≠ -1 then st.fat.freeClusters - 1
        else st.fat.freeClusters }
    prevEnt := st.fatent
    bhs := fatCollectBhs st.bhs st.fatent
    cluster := st.cluster ++ [entry] }

/-- The entry is free. -/
def AllocState.isFree (st : AllocState) (sb : FatSb) : Bool :=
  sb.ops.entGet st.fat.disk st.fatent == fatEntFree

/-- The loop over the entries of a block, with at most `n` rounds; `true` if it went to `out`. -/
def allocBlock (sb : FatSb) (nrCluster : Nat) : (n : Nat) → AllocState → Bool × AllocState
  | 0, st => (false, st)
  | n + 1, st =>
    let free := st.isFree sb
    let st := if free then st.link sb else st
    if free ∧ st.cluster.length = nrCluster then (true, st)
    else
      let st := { st with count := st.count + 1 }
      if st.count = sb.maxCluster then (false, st)
      else
        let r := fatEntNext sb st.fatent
        let st := { st with fatent := r.2 }
        if r.1 then allocBlock sb nrCluster n st else (false, st)

/-- The loop over the blocks; `none` if `fuel` runs out. -/
def allocLoop (sb : FatSb) (io : FatIo) (nrCluster : Nat) :
    (fuel : Nat) → AllocState → Option (Int × AllocState)
  | 0, _ => none
  | fuel + 1, st =>
    if st.count < sb.maxCluster then
      let entry := if sb.maxCluster ≤ st.fatent.entry then fatStartEnt else st.fatent.entry
      match fatEntReadBlock sb io (st.fatent.setEntry entry) with
      | .error err => some (err, st)
      | .ok fe =>
        match allocBlock sb nrCluster (sb.maxCluster - st.count) { st with fatent := fe } with
        | (true, st) => some (0, st)
        | (false, st) => allocLoop sb io nrCluster fuel st
    else
      some (-enospc, { st with fat := { st.fat with
        freeClusters := 0
        freeClusValid := true } })

/-- `fat_alloc_clusters`: the result, the clusters and the new state; `none` is the `BUG_ON`, or
that the fuel of a loop runs out. -/
def fatAllocClusters (sb : FatSb) (io : FatIo) (needsSync : Bool) (s : FatState)
    (nrCluster : Nat) : Option (Int × List Nat × FatState) :=
  if maxBufPerPage / 2 < nrCluster then none
  else if s.freeClusters ≠ -1 ∧ s.freeClusValid ∧ s.freeClusters < nrCluster then
    some (-enospc, [], s)
  else
    let st : AllocState :=
      { fat := s
        fatent := FatEntry.init.setEntry (s.prevFree + 1)
        prevEnt := .init
        bhs := []
        cluster := []
        count := fatStartEnt }
    match allocLoop sb io nrCluster sb.maxCluster st with
    | none => none
    | some (err, st) =>
      let r := if err = 0 then syncAndMirror sb io needsSync st.bhs st.fat.disk
        else (err, st.fat.disk)
      let s := { st.fat with disk := r.2 }
      if r.1 ≠ 0 then
        match st.cluster with
        | [] => some (r.1, st.cluster, s)
        | c :: _ =>
          match fatFreeClusters sb io s c with
          | none => none
          | some (_, s) => some (r.1, st.cluster, s)
      else some (r.1, st.cluster, s)

end LinuxStm32.Fs.Fat
