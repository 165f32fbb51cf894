import LinuxStm32.Base.Access
import LinuxStm32.Base.Block

/-!
# The loader of flat executables

Model of `fs/binfmt_flat.c:122–165, 311–827, 881–960` as it is configured here: no compressed
images, no shared libraries (`MAX_SHARED_LIBS` is 1), `FLAT_DATA_ALIGN` 8, and the macros of
`arch/arm/include/asm/flat.h`. The loader is a program over memory whose accesses are recorded:
the writes, and the reads of words of the GOT, of relocation entries and of the pointers they
name. The strings that `create_flat_tables` walks over are looked at without a record.

The environment gives the results of `flush_old_exec`, `do_mmap` and the file's `read`, and the
contents of memory once the mappings exist. What a mapping contains are its pages: `do_mmap`
hands out whole pages, so its address is a multiple of the page size.
-/

namespace LinuxStm32.Fs

open Base

/-! ### The header -/

/-- `struct flat_hdr`, `include/linux/flat.h:31`, in the order of the machine. -/
structure FlatHdr where
  magic : List UInt8
  rev : Nat
  entry : Nat
  dataStart : Nat
  dataEnd : Nat
  bssEnd : Nat
  stackSize : Nat
  relocStart : Nat
  relocCount : Nat
  flags : Nat
  deriving DecidableEq, Repr

/-- A big-endian word of a buffer. -/
def be32 (buf : Nat → UInt8) (o : Nat) : Nat :=
  (buf o).toNat * 16777216 + (buf (o + 1)).toNat * 65536 + (buf (o + 2)).toNat * 256 +
    (buf (o + 3)).toNat

/-- The header in `bprm->buf`. -/
def flatHdr (buf : Nat → UInt8) : FlatHdr where
  magic := [buf 0, buf 1, buf 2, buf 3]
  rev := be32 buf 4
  entry := be32 buf 8
  dataStart := be32 buf 12
  dataEnd := be32 buf 16
  bssEnd := be32 buf 20
  stackSize := be32 buf 24
  relocStart := be32 buf 28
  relocCount := be32 buf 32
  flags := be32 buf 36

/-- `FLAT_VERSION`. -/
def flatVersion : Nat := 4

/-- `OLD_FLAT_VERSION`. -/
def oldFlatVersion : Nat := 2

/-- `RELOC_FAILED`. -/
def relocFailed : Nat := 0xff00ff01

/-- `TOP_OF_ARGS`: `PAGE_SIZE * MAX_ARG_PAGES - sizeof(void *)`. -/
def topOfArgs : Nat := 131068

/-- `IS_ERR_VALUE`. -/
def isErrValue (x : Nat) : Bool := decide (4294963201 ≤ x)

/-- Why `load_flat_binary` does not return 0: an error, or a loop that does not end. -/
inductive FlatStop
  | error (ret : Int)
  | endless
  deriving DecidableEq, Repr

/-- `-ENOEXEC`. -/
def enoexec : FlatStop := .error (-8)

/-- `-ENOMEM`. -/
def enomem : FlatStop := .error (-12)

/-! ### What the loader is given -/

/-- The header, the file and the argument strings, and what the environment answers. An answer
`some e` is the error `-e`. `stray` are the bytes read past the argument pages. -/
structure FlatInput where
  buf : Nat → UInt8
  file : List UInt8
  argv : List (List UInt8)
  envp : List (List UInt8)
  filename : List UInt8
  rlimData : Nat
  flushOldExec : Option Nat
  textMap : Nat
  dataMap : Nat
  readText : Option Nat
  readData : Option Nat
  mem : Mem
  stray : Nat → UInt8

namespace FlatInput

variable (x : FlatInput)

/-- The strings as `copy_strings` leaves them in the argument pages. -/
def strings : List UInt8 := (x.argv ++ x.envp ++ [x.filename]).flatMap (· ++ [0])

/-- `bprm->p`. -/
def p : Nat := topOfArgs - x.strings.length

/-- `bprm->argc`. -/
def argc : Nat := x.argv.length

/-- `bprm->envc`. -/
def envc : Nat := x.envp.length

/-- `stack_len` of `load_flat_binary`, before the image is loaded. -/
def extraStack : Nat :=
  wadd (wadd (wadd (wsub topOfArgs x.p) (wmul (x.argc + 1) 4)) (wmul (x.envc + 1) 4)) 7

/-- The header. -/
def hdr : FlatHdr := flatHdr x.buf

/-- `text_len`, with the header. -/
def textLen : Nat := x.hdr.dataStart

/-- `data_len`. -/
def dataLen : Nat := wsub x.hdr.dataEnd x.hdr.dataStart

/-- `bss_len`. -/
def bssLen : Nat := wsub x.hdr.bssEnd x.hdr.dataEnd

/-- `stack_len` of `load_flat_file`. -/
def stackLen : Nat := wadd x.hdr.stackSize x.extraStack

/-- `relocs * sizeof(unsigned long)`. -/
def relocBytes : Nat := wmul x.hdr.relocCount 4

/-- How often a loop to `relocs` is run: `relocs` is an `int`. -/
def relocs : Nat := if x.hdr.relocCount < 2147483648 then x.hdr.relocCount else 0

/-- `flags`, as fixed up for the older format. -/
def flags : Nat :=
  if x.hdr.rev = oldFlatVersion ∧ x.hdr.flags ≠ 0 then 1 else x.hdr.flags

/-- `FLAT_FLAG_RAM`. -/
def ram : Bool := x.flags.testBit 0

/-- `FLAT_FLAG_GOTPIC`. -/
def gotpic : Bool := x.flags.testBit 1

/-- `extra`. -/
def extra : Nat := max (wadd x.bssLen x.stackLen) x.relocBytes

/-! ### Checks and mappings -/

/-- The checks before the mappings are made; `fs/binfmt_flat.c:456–519`. -/
def check : Except FlatStop Unit :=
  if x.hdr.magic ≠ [0x62, 0x46, 0x4c, 0x54] then .error enoexec
  else if x.hdr.rev ≠ flatVersion ∧ x.hdr.rev ≠ oldFlatVersion then .error enoexec
  else if x.flags.testBit 2 || x.flags.testBit 3 then .error enoexec
  else if x.rlimData < wadd x.dataLen x.bssLen then .error enomem
  else match x.flushOldExec with
    | some e => .error (.error (-e))
    | none => .ok ()

/-- The length asked for the mapping that holds the data. -/
def mapLen : Nat :=
  if x.ram then pageAlign (wadd (wadd (wadd x.textLen x.dataLen) x.extra) 4)
  else pageAlign (wadd (wadd x.dataLen x.extra) 4)

end FlatInput

/-- The pages of a mapping of `len` bytes, in bytes. -/
def pagesOf (len : Nat) : Nat := (len + 4095) / 4096 * 4096

/-- Where the image goes, and the mappings made for it. -/
structure Layout where
  textpos : Nat
  datapos : Nat
  memp : Nat
  mempSize : Nat
  mappings : List Block
  deriving DecidableEq, Repr

/-- The result of a `do_mmap`: an address, or the error the loader returns for it. -/
def mapped (r : Nat) : Except FlatStop Nat :=
  if r = 0 then .error enomem
  else if isErrValue r then .error (.error ((r : Int) - 4294967296))
  else .ok r

/-- The mappings; `fs/binfmt_flat.c:534–651`. -/
def FlatInput.layout (x : FlatInput) : Except FlatStop Layout := do
  x.check
  if x.ram then
    let textpos ← mapped x.textMap
    let realdatastart := wadd textpos x.hdr.dataStart
    return ⟨textpos, align (wadd realdatastart 4) 8, textpos, x.mapLen, [⟨textpos, x.mapLen⟩]⟩
  else
    let textpos ← mapped x.textMap
    let realdatastart ← mapped x.dataMap
    return ⟨textpos, align (wadd realdatastart 4) 8, realdatastart, x.mapLen,
      [⟨textpos, pagesOf x.textLen⟩, ⟨realdatastart, x.mapLen⟩]⟩

/-- A mapping of `len` bytes can be given the address: whole pages, below the end of memory. -/
def Placed (addr len : Nat) : Prop :=
  addr % 4096 = 0 ∧ 0 < len ∧ addr + pagesOf len < 4294967296

instance (addr len : Nat) : Decidable (Placed addr len) :=
  inferInstanceAs (Decidable (_ ∧ _ ∧ _))

/-- An exec of a flat file: the strings fit in the argument pages, and the mappings that are made
are placed in memory, apart from each other. -/
structure FlatExec extends FlatInput where
  fits : toFlatInput.strings.length ≤ topOfArgs
  textPlaced : ∀ a, mapped textMap = .ok a →
    Placed a (if toFlatInput.ram then toFlatInput.mapLen else toFlatInput.textLen)
  dataPlaced : ∀ a, mapped dataMap = .ok a → toFlatInput.ram = false →
    Placed a toFlatInput.mapLen
  apart : ∀ a b, mapped textMap = .ok a → mapped dataMap = .ok b → toFlatInput.ram = false →
    a + pagesOf toFlatInput.textLen ≤ b ∨ b + toFlatInput.mapLen ≤ a

/-- The header of an image in RAM, with its words from `data_start` to `reloc_count`. -/
def ramHeader (words : List Nat) : List UInt8 :=
  [0x62, 0x46, 0x4c, 0x54] ++ ([4, 64] ++ words ++ [1]).flatMap fun w =>
    [0, 0, UInt8.ofNat (w / 256), UInt8.ofNat w]

/-- Such an image, loaded where the environment refuses nothing. -/
def ramInput (words : List Nat) (file : List UInt8) (argv : List (List UInt8)) : FlatInput where
  buf := fun i => (ramHeader words).getD i 0
  file := file
  argv := argv
  envp := []
  filename := [97]
  rlimData := 4294967295
  flushOldExec := none
  textMap := 0xC0100000
  dataMap := 0
  readText := none
  readData := none
  mem := fun _ => 1
  stray := fun _ => 0

/-- The exec of such an image. -/
def ramExec (words : List Nat) (file : List UInt8) (argv : List (List UInt8))
    (fits : (ramInput words file argv).strings.length ≤ topOfArgs)
    (placed : Placed 0xC0100000 (if (ramInput words file argv).ram then
      (ramInput words file argv).mapLen else (ramInput words file argv).textLen)) : FlatExec where
  toFlatInput := ramInput words file argv
  fits := fits
  textPlaced := fun a ha => by
    cases ha
    exact placed
  dataPlaced := fun a ha => nomatch ha
  apart := fun a b _ hb => nomatch hb

/-! ### Relocation -/

/-- The values of `struct lib_info` and of the `mm_struct` that the loader uses. -/
structure FlatImage where
  startCode : Nat
  startData : Nat
  endData : Nat
  startBrk : Nat
  endBrk : Nat
  textLen : Nat
  entry : Nat
  deriving DecidableEq, Repr

/-- `flat_reloc_valid`, `arch/arm/include/asm/flat.h:10`. -/
def flatRelocValid (reloc size : Nat) : Bool := decide (reloc ≤ size)

/-- `calc_reloc`, `fs/binfmt_flat.c:312`. -/
def calcReloc (lib : FlatImage) (r : Nat) : Nat :=
  if flatRelocValid r (wadd (wsub lib.startBrk lib.startData) lib.textLen) then
    if r < lib.textLen then wadd r lib.startCode
    else wadd (wsub r lib.textLen) lib.startData
  else relocFailed

/-- The loop over the GOT, `fs/binfmt_flat.c:731–743`. After `2 ^ 30` words it has been through
the whole address space. -/
def gotLoop (lib : FlatImage) : Nat → Nat → Prog FlatStop Unit
  | 0, _ => Prog.fail .endless
  | n + 1, rp => do
    let w ← Prog.load32 rp
    if w = 0xffffffff then pure ()
    else if w = 0 then gotLoop lib n (wadd rp 4)
    else if calcReloc lib w = relocFailed then Prog.fail enoexec
    else do
      Prog.store32 rp (calcReloc lib w)
      gotLoop lib n (wadd rp 4)

/-- One turn of the loop over the relocation entries, `fs/binfmt_flat.c:758–809`. -/
def relocEntry (lib : FlatImage) (gotpic : Bool) (a : Nat) : Prog FlatStop Unit := do
  let relval ← Prog.load32 a
  let rp := calcReloc lib (ntohl relval)
  if rp = relocFailed then Prog.fail enoexec
  else do
    let v ← Prog.load32 rp
    if v = 0 then pure ()
    else
      let addr := calcReloc lib (if gotpic then v else ntohl v)
      if addr = relocFailed then Prog.fail enoexec
      else Prog.store32 rp addr

/-- The 30-bit offset of an entry of the old format, extended to a word. -/
def oldOffset (r : Nat) : Nat :=
  if r % 1073741824 < 536870912 then r % 1073741824 else r % 1073741824 + 3221225472

/-- What the type of an entry of the old format adds; one type is unknown. -/
def oldBase (lib : FlatImage) (r : Nat) : Option Nat :=
  match r / 1073741824 with
  | 0 => some lib.startCode
  | 1 => some lib.startData
  | 2 => some lib.endData
  | _ => none

/-- `old_reloc`, `fs/binfmt_flat.c:382`, on the entry at `a`. -/
def oldReloc (lib : FlatImage) (a : Nat) : Prog FlatStop Unit := do
  let r := ntohl (← Prog.load32 a)
  let ptr := wadd lib.startData (oldOffset r)
  match oldBase lib r with
  | none => pure ()
  | some base => do
    let v ← Prog.load32 ptr
    Prog.store32 ptr (wadd v base)

/-- `for (i = 0; i < relocs; i++)` over the entries from `reloc` on. -/
def forRelocs (body : Nat → Prog FlatStop Unit) (reloc : Nat) : Nat → Nat → Prog FlatStop Unit
  | 0, _ => pure ()
  | n + 1, i => do
    body (wadd reloc (wmul i 4))
    forRelocs body reloc n (i + 1)

/-! ### Loading -/

namespace FlatInput

variable (x : FlatInput)

/-- The file's `read` of `count` bytes at `pos` to `dst`. -/
def readFile (err : Option Nat) (dst pos count : Nat) : Prog FlatStop Unit :=
  match err with
  | some e => Prog.fail (.error (-e))
  | none => do
    let n := min count (x.file.length - pos)
    Prog.fill dst n fun k => x.file.getD (pos + k) 0
    if isErrValue n then Prog.fail (.error ((n : Int) - 4294967296)) else pure ()

/-- The reads of text and data. -/
def readImage (l : Layout) : Prog FlatStop Unit := do
  if x.ram then x.readFile x.readText l.textpos 0 x.textLen
  x.readFile x.readData l.datapos x.hdr.dataStart (wadd x.dataLen x.relocBytes)

/-- What is recorded about the image; `fs/binfmt_flat.c:658–713`. -/
def image (l : Layout) : FlatImage where
  startCode := wadd l.textpos 64
  startData := l.datapos
  endData := wadd l.datapos x.dataLen
  startBrk := wadd (wadd l.datapos x.dataLen) x.bssLen
  endBrk := wsub (wadd l.memp l.mempSize) x.stackLen
  textLen := wsub x.textLen 64
  entry := wadd (x.hdr.entry % 16777216) l.textpos

/-- `reloc`, the address of the relocation entries. -/
def reloc (l : Layout) : Nat := wadd l.datapos (wsub x.hdr.relocStart x.textLen)

/-- The two passes of relocation. -/
def relocate (l : Layout) : Prog FlatStop Unit := do
  if x.gotpic then gotLoop (x.image l) 1073741824 l.datapos
  if oldFlatVersion < x.hdr.rev then
    forRelocs (relocEntry (x.image l) x.gotpic) (x.reloc l) x.relocs 0
  else forRelocs (oldReloc (x.image l)) (x.reloc l) x.relocs 0

/-- The `memset` that ends `load_flat_file`. -/
def clear (l : Layout) : Prog FlatStop Unit :=
  Prog.fill (wadd l.datapos x.dataLen)
    (wadd (wadd x.bssLen (wsub (wsub (wadd l.memp l.mempSize) x.stackLen) (x.image l).startBrk))
      x.stackLen) fun _ => 0

/-- `load_flat_file`, `fs/binfmt_flat.c:425`. -/
def loadFlatFile : Prog FlatStop FlatImage :=
  match x.layout with
  | .error e => Prog.fail e
  | .ok l => do
    x.readImage l
    x.relocate l
    x.clear l
    return x.image l

/-- A byte of the argument pages, and of what the loader takes for such pages. -/
def argByte (i : Nat) : UInt8 :=
  if i < topOfArgs then x.strings.getD (i - x.p) 0 else x.stray i

/-- The loop that copies the strings, from the last byte down; `i` is compared as unsigned. -/
def copyArgs : Nat → Nat → Nat → Prog FlatStop Nat
  | 0, _, _ => Prog.fail .endless
  | n + 1, i, dst =>
    if x.p ≤ i then do
      Prog.fill (wsub dst 1) 1 fun _ => x.argByte i
      copyArgs n (wsub i 1) (wsub dst 1)
    else pure dst

end FlatInput

/-- The walk over one string, for at most `n` bytes: the address after its `NUL`. -/
def skipString (m : Mem) : Nat → Nat → Option Nat
  | 0, _ => none
  | n + 1, p => if m p = 0 then some (wadd p 1) else skipString m n (wadd p 1)

/-- A pointer loop of `create_flat_tables`: `n` strings from `p` on, pointers from `argv` on. -/
def pointerLoop (fuel : Nat) : Nat → Nat → Nat → Prog FlatStop Nat
  | 0, p, _ => pure p
  | n + 1, p, argv => do
    Prog.store32 argv p
    match ← Prog.inspect (skipString · fuel p) with
    | none => Prog.fail .endless
    | some p' => pointerLoop fuel n p' (wadd argv 4)

/-- `create_flat_tables`, `fs/binfmt_flat.c:122`. -/
def createFlatTables (fuel pp argc envc : Nat) : Prog FlatStop Nat := do
  let sp := alignDown (wsub pp (wmul (envc + argc + 5) 4)) 8
  let argv := wadd sp 12
  let envp := wadd argv (wmul (argc + 1) 4)
  Prog.store32 (wadd sp 8) envp
  Prog.store32 (wadd sp 4) argv
  Prog.store32 sp argc
  let p ← pointerLoop fuel argc pp argv
  Prog.store32 (wadd argv (wmul argc 4)) 0
  let _ ← pointerLoop fuel envc p envp
  Prog.store32 (wadd envp (wmul envc 4)) 0
  return sp

namespace FlatInput

variable (x : FlatInput)

/-- Where `load_flat_binary` starts to copy the strings down. -/
def stackTop (lib : FlatImage) : Nat := wsub (alignDown (wadd (wadd lib.endBrk x.stackLen) 3) 4) 4

/-- The part of `load_flat_binary` that fills the stack. -/
def putArgs (fuel : Nat) (lib : FlatImage) : Prog FlatStop (Nat × Nat) := do
  let p ← x.copyArgs fuel (topOfArgs - 1) (x.stackTop lib)
  let sp ← createFlatTables fuel p x.argc x.envc
  return (lib.entry, sp)

/-- What `load_flat_binary` does with a loaded image: the entry point and the stack pointer. -/
def startImage (fuel : Nat) (lib : FlatImage) : Prog FlatStop (Nat × Nat) := do
  Prog.store32 (wsub lib.startData 4) lib.startData
  x.putArgs fuel lib

/-- `load_flat_binary`, `fs/binfmt_flat.c:881`. A loop over bytes that takes more than `2 ^ 32`
turns has been through the whole address space and does not end. -/
def loadFlatBinary : Prog FlatStop (Nat × Nat) := do
  let lib ← x.loadFlatFile
  x.startImage 4294967297 lib

/-- The address lies in a mapping that the loader made. -/
def Mapped (a : Nat) : Prop := ∃ l, x.layout = .ok l ∧ ∃ b ∈ l.mappings, b.Has a

/-- Every byte that the loader writes, and every GOT word, relocation entry and relocated pointer
that it reads, lies in its mappings. -/
def Safe : Prop := ∀ a ∈ (x.loadFlatBinary x.mem).accesses, a.Inside x.Mapped

end FlatInput
end LinuxStm32.Fs
