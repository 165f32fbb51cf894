import LinuxStm32.Fs.FatEnt
import Mathlib.Algebra.Order.Group.Nat

/-!
# What the operations on FAT entries do

The three kinds of table seen as one: every entry is a number of the table, read and written whole.
`fatWord` takes it from the bytes of the disk; the operations of `fatent_operations` read it,
replace it and keep all other entries, also where two entries of twelve bits share a byte and where
an entry crosses the end of a block.
-/

namespace LinuxStm32.Fs.Fat

/-! ### Masks -/

theorem and_high_mask {x k m : Nat} (h : x < 2 ^ (k + m)) :
    x &&& ((2 ^ m - 1) <<< k) = (x >>> k) <<< k := by
  apply Nat.eq_of_testBit_eq
  intro i
  rw [Nat.testBit_and, Nat.testBit_shiftLeft, Nat.testBit_shiftLeft, Nat.testBit_shiftRight,
    Nat.testBit_two_pow_sub_one]
  by_cases hk : k ≤ i
  · rw [Nat.add_sub_cancel' hk]
    by_cases hm : i - k < m
    · simp only [hk, hm, decide_true, Bool.and_true, Bool.true_and]
    · have hbit : x.testBit i = false :=
        Nat.testBit_lt_two_pow (Nat.lt_of_lt_of_le h (Nat.pow_le_pow_right (by decide) (by omega)))
      rw [hbit, Bool.false_and, Bool.and_false]
  · simp only [ge_iff_le, hk, decide_false, Bool.false_and, Bool.and_false]

theorem and_0xf0 {x : Nat} (h : x < 256) : x &&& 0xf0 = (x / 16) <<< 4 := by
  rw [show 0xf0 = (2 ^ 4 - 1) <<< 4 by decide, and_high_mask (k := 4) (m := 4) h,
    Nat.shiftRight_eq_div_pow]

theorem and_0xf0000000 {x : Nat} (h : x < 4294967296) :
    x &&& 0xf0000000 = (x / 268435456) <<< 28 := by
  rw [show 0xf0000000 = (2 ^ 4 - 1) <<< 28 by decide, and_high_mask (k := 28) (m := 4) h,
    Nat.shiftRight_eq_div_pow]

theorem and_one_eq_mod (x : Nat) : x &&& 1 = x % 2 := Nat.and_two_pow_sub_one_eq_mod x 1

/-! ### The kinds of table -/

namespace FatBits

/-- The numbers of an entry are below this. -/
def modulus : FatBits → Nat
  | fat12 => 4096
  | fat16 => 65536
  | fat32 => 268435456

/-- `BAD_FAT12`, `BAD_FAT16` or `BAD_FAT32`. -/
def bad : FatBits → Nat
  | fat12 => 0xff7
  | fat16 => 0xfff7
  | fat32 => 0x0ffffff7

/-- `EOF_FAT12`, `EOF_FAT16` or `EOF_FAT32`. -/
def eof : FatBits → Nat
  | fat12 => 0xfff
  | fat16 => 0xffff
  | fat32 => 0x0fffffff

/-- `MAX_FAT12`, `MAX_FAT16` or `MAX_FAT32`. -/
def maxFat : FatBits → Nat
  | fat12 => 0xff4
  | fat16 => 0xfff4
  | fat32 => 0x0ffffff6

/-- The position of an entry in the table, in bytes. -/
def pos : FatBits → Nat → Nat
  | fat12, e => e + e / 2
  | fat16, e => 2 * e
  | fat32, e => 4 * e

/-- The size of an entry in the table, in bits. -/
def size : FatBits → Nat
  | fat12 => 12
  | fat16 => 16
  | fat32 => 32

/-- What an entry says. -/
def dec (t : FatBits) (w : Nat) : Nat := endIfBad t.bad (w % t.modulus)

/-- The entry `w` after `new` was written: the bits above the number stay. -/
def enc (t : FatBits) (new w : Nat) : Nat := w / t.modulus * t.modulus + storedEof t.eof new

theorem modulus_pos (t : FatBits) : 0 < t.modulus := by cases t <;> decide

theorem dec_enc_eof (t : FatBits) (w : Nat) : t.dec (t.enc fatEntEof w) = fatEntEof := by
  have hlt : t.eof < t.modulus := by cases t <;> decide
  rw [dec, enc, storedEof, if_pos rfl, Nat.mul_add_mod_of_lt hlt, endIfBad,
    if_pos (by cases t <;> decide)]

/-- A number below `bad` is read back; the others end the chain. -/
theorem dec_enc {t : FatBits} {x : Nat} (hx : x < t.maxFat + 2) (w : Nat) :
    t.dec (t.enc x w) = if x < t.bad then x else fatEntEof := by
  have hne : x ≠ fatEntEof := by
    rintro rfl
    revert hx
    cases t <;> decide
  have hlt : x < t.modulus := Nat.lt_of_lt_of_le hx (by cases t <;> decide)
  rw [dec, enc, storedEof, if_neg hne, Nat.mul_add_mod_of_lt hlt, endIfBad]
  by_cases h : x < t.bad
  · rw [if_neg (Nat.not_le.mpr h), if_pos h]
  · rw [if_pos (Nat.le_of_not_lt h), if_neg h]

/-- Writing twice is writing once. -/
theorem enc_enc {t : FatBits} {x : Nat} (hx : x = fatEntEof ∨ x < t.maxFat + 2) (y w : Nat) :
    t.enc y (t.enc x w) = t.enc y w := by
  have hlt : storedEof t.eof x < t.modulus := by
    rw [storedEof]
    split
    next h => cases t <;> decide
    next h => exact Nat.lt_of_lt_of_le (hx.resolve_left h) (by cases t <;> decide)
  rw [enc, enc, Nat.add_comm (w / t.modulus * t.modulus),
    Nat.add_mul_div_right _ _ t.modulus_pos, Nat.div_eq_of_lt hlt, Nat.zero_add]
  rfl

/-- An entry is free if its number is zero. -/
theorem dec_eq_free {t : FatBits} {w : Nat} : t.dec w = fatEntFree ↔ w % t.modulus = 0 := by
  rw [dec, endIfBad]
  split
  next h =>
    constructor
    · intro he
      cases he
    · intro he
      rw [he] at h
      revert h
      cases t <;> decide
  next h => exact Iff.rfl

/-- Freeing a free entry leaves it as it is. -/
theorem enc_free {t : FatBits} {w : Nat} (h : t.dec w = fatEntFree) : t.enc fatEntFree w = w := by
  have hmod := dec_eq_free.mp h
  have hdiv := Nat.div_add_mod w t.modulus
  rw [hmod, Nat.add_zero, Nat.mul_comm] at hdiv
  exact hdiv

end FatBits

/-- What mounting makes sure of (`fs/fat/inode.c:1296,1409–1419`). -/
structure FatSb.Valid (sb : FatSb) : Prop where
  blocksizeBits : 9 ≤ sb.blocksizeBits
  maxCluster : sb.maxCluster ≤ sb.fatBits.maxFat + 2
  fits : sb.maxCluster * sb.fatBits.size ≤ sb.fatLength * sb.blocksize * 8

namespace FatSb

/-- The pointer to a byte of the table. -/
def ptr (sb : FatSb) (i : Nat) : BufPtr := ⟨sb.fatStart + i / sb.blocksize, i % sb.blocksize⟩

/-- A byte of the table. -/
def byte (sb : FatSb) (d : FatDisk) (i : Nat) : Nat := d.get (sb.ptr i)

/-- An entry of the table, taken from its bytes. -/
def fatWord (sb : FatSb) (d : FatDisk) (e : Nat) : Nat :=
  let b (k : Nat) := sb.byte d (sb.fatBits.pos e + k)
  match sb.fatBits with
  | .fat12 => if e % 2 = 1 then b 0 / 16 + 16 * b 1 else b 0 + 256 * (b 1 % 16)
  | .fat16 => b 0 + 256 * b 1
  | .fat32 => b 0 + 256 * b 1 + 65536 * b 2 + 16777216 * b 3

variable {sb : FatSb} {fe : FatEntry} {e : Nat} {x : Nat} {io : FatIo} {d d' : FatDisk}

theorem blocksize_pos : 0 < sb.blocksize := Nat.two_pow_pos _

theorem Valid.dvd_blocksize (h : sb.Valid) : 512 ∣ sb.blocksize :=
  Nat.pow_dvd_pow 2 h.blocksizeBits

theorem Valid.le_blocksize (h : sb.Valid) : 512 ≤ sb.blocksize :=
  Nat.le_of_dvd blocksize_pos h.dvd_blocksize

theorem ptr_inj {i j : Nat} (h : sb.ptr i = sb.ptr j) : i = j := by
  injection h with hdiv hmod
  rw [← Nat.div_add_mod i sb.blocksize, ← Nat.div_add_mod j sb.blocksize, hmod,
    Nat.add_left_cancel hdiv]

theorem ptr_add {i k : Nat} (h : i % sb.blocksize + k < sb.blocksize) :
    sb.ptr (i + k) = (sb.ptr i).add k := by
  obtain ⟨hdiv, hmod⟩ : (i + k) / sb.blocksize = i / sb.blocksize ∧
      (i + k) % sb.blocksize = i % sb.blocksize + k := by
    rw [Nat.div_mod_unique blocksize_pos]
    refine ⟨?_, h⟩
    have := Nat.mod_add_div i sb.blocksize
    omega
  rw [ptr, ptr, BufPtr.add, hdiv, hmod]

/-- The byte after the last one of a block is the first one of the next. -/
theorem ptr_succ_of_last {i : Nat} (h : i % sb.blocksize + 1 = sb.blocksize) :
    sb.ptr (i + 1) = ⟨(sb.ptr i).block + 1, 0⟩ := by
  obtain ⟨hdiv, hmod⟩ : (i + 1) / sb.blocksize = i / sb.blocksize + 1 ∧
      (i + 1) % sb.blocksize = 0 := by
    rw [Nat.div_mod_unique blocksize_pos]
    refine ⟨?_, blocksize_pos⟩
    have := Nat.mod_add_div i sb.blocksize
    rw [Nat.mul_succ]
    omega
  rw [ptr, ptr, hdiv, hmod]
  rfl

theorem byte_lt (sb : FatSb) (d : FatDisk) (i : Nat) : sb.byte d i < 256 := UInt8.toNat_lt _

theorem byte_set (d : FatDisk) (i v j : Nat) :
    sb.byte (d.set (sb.ptr i) v) j = if j = i then v % 256 else sb.byte d j := by
  rw [byte, FatDisk.get, FatDisk.set]
  by_cases h : j = i
  · rw [if_pos h, h, if_pos ⟨rfl, rfl⟩, UInt8.toNat_ofNat']
  · rw [if_neg h, if_neg]
    · rfl
    · rintro ⟨hb, ho⟩
      exact h (ptr_inj (BufPtr.ext hb ho))

/-! ### Designating an entry -/

/-- The blocks that have the bytes of an entry. -/
def blocks (sb : FatSb) (e : Nat) : List Nat :=
  let p := sb.ptr (sb.fatBits.pos e)
  if sb.fatBits = .fat12 ∧ p.off + 1 = sb.blocksize then [p.block, p.block + 1] else [p.block]

theorem length_blocks_ne_zero (sb : FatSb) (e : Nat) : (sb.blocks e).length ≠ 0 := by
  rw [blocks]
  split
  · exact Nat.succ_ne_zero _
  · exact Nat.succ_ne_zero _

/-- The buffers and pointers of `fe` are those of the entry `e`. -/
structure At (sb : FatSb) (fe : FatEntry) (e : Nat) : Prop where
  entry : fe.entry = e
  bhs : fe.bhs = sb.blocks e
  p : fe.p = sb.ptr (sb.fatBits.pos e)
  q : sb.fatBits = .fat12 → fe.q = sb.ptr (sb.fatBits.pos e + 1)

theorem ptr_off_lt (i : Nat) : (sb.ptr i).off < sb.blocksize := Nat.mod_lt _ blocksize_pos

/-- An entry of two or four bytes does not cross the end of a block. -/
theorem Valid.off_add_le (h : sb.Valid) {k : Nat} (hk : k ∣ 512) (i : Nat) :
    (sb.ptr (k * i)).off + k ≤ sb.blocksize := by
  obtain ⟨m, hm⟩ := hk.trans h.dvd_blocksize
  have hkpos : 0 < k := Nat.pos_of_dvd_of_pos hk (by decide)
  show k * i % sb.blocksize + k ≤ sb.blocksize
  rw [hm, Nat.mul_mod_mul_left, ← Nat.mul_succ]
  apply Nat.mul_le_mul_left
  apply Nat.mod_lt
  apply Nat.pos_of_ne_zero
  rintro rfl
  have := sb.blocksize_pos
  omega

theorem blocknr_eq (sb : FatSb) (e : Nat) :
    sb.ops.entBlocknr sb e =
      ((sb.ptr (sb.fatBits.pos e)).off, (sb.ptr (sb.fatBits.pos e)).block) := by
  have hmask (x : Nat) : x &&& (sb.blocksize - 1) = x % sb.blocksize :=
    Nat.and_two_pow_sub_one_eq_mod x _
  have hshift (x : Nat) : x >>> sb.blocksizeBits = x / sb.blocksize := Nat.shiftRight_eq_div_pow x _
  rw [ops]
  cases ht : sb.fatBits with
  | fat12 =>
    show (_ &&& _, _ + _ >>> _) = _
    rw [hmask, hshift, Nat.shiftRight_eq_div_pow]
    rfl
  | fat16 =>
    show (_ &&& _, _ + _ >>> _) = _
    rw [hmask, hshift, Nat.shiftLeft_eq, Nat.mul_comm]
    rfl
  | fat32 =>
    show (_ &&& _, _ + _ >>> _) = _
    rw [hmask, hshift, Nat.shiftLeft_eq, Nat.mul_comm]
    rfl

theorem ops_fat12 (h : sb.fatBits = .fat12) : sb.ops = fat12Ops := by rw [ops, h]

theorem ops_fat16 (h : sb.fatBits = .fat16) : sb.ops = fat16Ops := by rw [ops, h]

theorem ops_fat32 (h : sb.fatBits = .fat32) : sb.ops = fat32Ops := by rw [ops, h]

private theorem blocks_of_ne (h : sb.fatBits ≠ .fat12) (e : Nat) :
    sb.blocks e = [(sb.ptr (sb.fatBits.pos e)).block] := if_neg fun hc => h hc.1

private theorem at_setPtr_of_ne (h : sb.fatBits ≠ .fat12)
    (he : fe.entry = e) (hb : fe.bhs = sb.blocks e) :
    sb.At (fatEntSetPtr fe (sb.ptr (sb.fatBits.pos e)).off) e := by
  have hb' := hb.trans (blocks_of_ne h e)
  rw [fatEntSetPtr, hb']
  exact ⟨he, (blocks_of_ne h e).symm, rfl, fun ht => absurd ht h⟩

/-- Setting the pointers of an entry whose buffers are there. -/
theorem at_setPtr (he : fe.entry = e) (hb : fe.bhs = sb.blocks e) :
    sb.At (sb.ops.entSetPtr fe (sb.ptr (sb.fatBits.pos e)).off) e := by
  cases ht : sb.fatBits with
  | fat12 =>
    rw [← ht, ops_fat12 ht]
    show sb.At (fat12EntSetPtr fe _) e
    by_cases hlast : (sb.ptr (sb.fatBits.pos e)).off + 1 = sb.blocksize
    · have hblocks : sb.blocks e = _ := if_pos ⟨ht, hlast⟩
      rw [fat12EntSetPtr, hb, hblocks]
      exact ⟨he, hblocks.symm, rfl, fun _ => (ptr_succ_of_last hlast).symm⟩
    · have hblocks : sb.blocks e = _ := if_neg fun hc => hlast hc.2
      have hlt := sb.ptr_off_lt (sb.fatBits.pos e)
      rw [fat12EntSetPtr, hb, hblocks]
      refine ⟨he, hblocks.symm, rfl, fun _ => (ptr_add ?_).symm⟩
      show (sb.ptr (sb.fatBits.pos e)).off + 1 < sb.blocksize
      omega
  | fat16 =>
    have hne : sb.fatBits ≠ .fat12 := by rw [ht]; decide
    rw [← ht, ops_fat16 ht]
    exact at_setPtr_of_ne hne he hb
  | fat32 =>
    have hne : sb.fatBits ≠ .fat12 := by rw [ht]; decide
    rw [← ht, ops_fat32 ht]
    exact at_setPtr_of_ne hne he hb

/-- Without read errors `ent_bread` gets the buffers of the entry. -/
theorem entBread_at (hio : ∀ b, io.bread b = true) (he : fe.entry = e) :
    ∃ fe', sb.ops.entBread sb io fe (sb.ptr (sb.fatBits.pos e)).off
      (sb.ptr (sb.fatBits.pos e)).block = .ok fe' ∧ sb.At fe' e := by
  have hread (b : Nat) : ¬ io.bread b = false := by
    rw [hio b]
    exact Bool.false_ne_true.symm
  have hset (bhs : List Nat) (hb : bhs = sb.blocks e) :
      sb.At (sb.ops.entSetPtr { fe with bhs := bhs } (sb.ptr (sb.fatBits.pos e)).off) e :=
    at_setPtr he hb
  cases ht : sb.fatBits with
  | fat12 =>
    rw [← ht]
    rw [ops_fat12 ht] at hset ⊢
    show ∃ fe', fat12EntBread sb io fe _ _ = .ok fe' ∧ _
    rw [fat12EntBread, if_neg (hread _)]
    have hlt := sb.ptr_off_lt (sb.fatBits.pos e)
    split
    next hc => exact ⟨_, rfl, hset _ (if_neg fun hl => by omega).symm⟩
    next hc =>
      rw [if_neg (hread _)]
      exact ⟨_, rfl, hset _ (if_pos ⟨ht, by omega⟩).symm⟩
  | fat16 =>
    have hne : sb.fatBits ≠ .fat12 := by rw [ht]; decide
    rw [← ht]
    rw [ops_fat16 ht] at hset ⊢
    show ∃ fe', fatEntBread sb io fe _ _ = .ok fe' ∧ _
    rw [fatEntBread, if_neg (hread _)]
    exact ⟨_, rfl, hset _ (blocks_of_ne hne e).symm⟩
  | fat32 =>
    have hne : sb.fatBits ≠ .fat12 := by rw [ht]; decide
    rw [← ht]
    rw [ops_fat32 ht] at hset ⊢
    show ∃ fe', fatEntBread sb io fe _ _ = .ok fe' ∧ _
    rw [fatEntBread, if_neg (hread _)]
    exact ⟨_, rfl, hset _ (blocks_of_ne hne e).symm⟩

/-- `fat_ent_read_block`. -/
theorem readBlock_at (hio : ∀ b, io.bread b = true) (fe : FatEntry) :
    ∃ fe', fatEntReadBlock sb io fe = .ok fe' ∧ sb.At fe' fe.entry := by
  rw [fatEntReadBlock, blocknr_eq]
  exact entBread_at hio rfl

/-! ### Reading and writing -/

theorem byte_eq (d : FatDisk) (i : Nat) : d.get (sb.ptr i) = sb.byte d i := rfl

private theorem get12 (ht : sb.fatBits = .fat12) (h : sb.At fe e)
    (d : FatDisk) : fat12EntGet d fe = sb.fatBits.dec (sb.fatWord d e) := by
  have hq := h.q ht
  rw [fat12EntGet, h.entry, h.p, hq, byte_eq, byte_eq, FatBits.dec, fatWord]
  simp only [ht, FatBits.pos, FatBits.bad, FatBits.modulus, Nat.add_zero, and_one_eq_mod]
  generalize hb0 : sb.byte d (e + e / 2) = b0
  generalize sb.byte d (e + e / 2 + 1) = b1
  have hb0' : b0 < 256 := by
    rw [← hb0]
    exact sb.byte_lt d _
  congr 1
  rw [show (0x0fff : Nat) = 2 ^ 12 - 1 by decide, Nat.and_two_pow_sub_one_eq_mod]
  by_cases hodd : e % 2 = 1
  · rw [if_pos (by omega), if_pos hodd, Nat.or_comm, Nat.shiftRight_eq_div_pow,
      ← Nat.shiftLeft_add_eq_or_of_lt (by omega), Nat.shiftLeft_eq]
    omega
  · rw [if_neg (by omega), if_neg hodd, ← Nat.shiftLeft_add_eq_or_of_lt hb0', Nat.shiftLeft_eq]
    omega

private theorem get_ptr_add (hv : sb.Valid) {k : Nat} (hk : k ∣ 512) {i j : Nat} (hj : j < k) :
    (sb.ptr (k * i)).add j = sb.ptr (k * i + j) := by
  apply (ptr_add _).symm
  have := hv.off_add_le hk i
  show (sb.ptr (k * i)).off + j < sb.blocksize
  omega

private theorem get16 (hv : sb.Valid) (ht : sb.fatBits = .fat16)
    (h : sb.At fe e) (d : FatDisk) : fat16EntGet d fe = sb.fatBits.dec (sb.fatWord d e) := by
  rw [fat16EntGet, h.p, FatBits.dec, fatWord]
  simp only [ht, FatBits.pos, FatBits.bad, FatBits.modulus, Nat.add_zero, FatDisk.le16,
    get_ptr_add hv (show 2 ∣ 512 by decide) (show 1 < 2 by decide), byte_eq]
  have h0 := sb.byte_lt d (2 * e)
  have h1 := sb.byte_lt d (2 * e + 1)
  rw [Nat.mod_eq_of_lt (by omega)]

private theorem get32 (hv : sb.Valid) (ht : sb.fatBits = .fat32)
    (h : sb.At fe e) (d : FatDisk) : fat32EntGet d fe = sb.fatBits.dec (sb.fatWord d e) := by
  have h4 : 4 ∣ 512 := by decide
  rw [fat32EntGet, h.p, FatBits.dec, fatWord]
  simp only [ht, FatBits.pos, FatBits.bad, FatBits.modulus, Nat.add_zero, FatDisk.le32,
    get_ptr_add hv h4 (show 1 < 4 by decide), get_ptr_add hv h4 (show 2 < 4 by decide),
    get_ptr_add hv h4 (show 3 < 4 by decide), byte_eq]
  rw [show (0x0fffffff : Nat) = 2 ^ 28 - 1 by decide, Nat.and_two_pow_sub_one_eq_mod]

/-- `ent_get` reads the entry. -/
theorem entGet_at (hv : sb.Valid) (h : sb.At fe e) (d : FatDisk) :
    sb.ops.entGet d fe = sb.fatBits.dec (sb.fatWord d e) := by
  cases ht : sb.fatBits with
  | fat12 =>
    rw [← ht, ops_fat12 ht]
    exact get12 ht h d
  | fat16 =>
    rw [← ht, ops_fat16 ht]
    exact get16 hv ht h d
  | fat32 =>
    rw [← ht, ops_fat32 ht]
    exact get32 hv ht h d

/-- The entry `e` is replaced and all others stay. -/
def Replaces (sb : FatSb) (d d' : FatDisk) (e w : Nat) : Prop :=
  ∀ e', sb.fatWord d' e' = if e' = e then w else sb.fatWord d e'

private theorem fatWord12 (ht : sb.fatBits = .fat12) (d : FatDisk) (e : Nat) :
    sb.fatWord d e = if e % 2 = 1 then sb.byte d (e + e / 2) / 16 + 16 * sb.byte d (e + e / 2 + 1)
      else sb.byte d (e + e / 2) + 256 * (sb.byte d (e + e / 2 + 1) % 16) := by
  simp only [fatWord, ht, FatBits.pos, Nat.add_zero]

/-- The bytes of an odd entry were written; the even entry before it shares the first one. -/
private theorem fatWord12_of_odd (ht : sb.fatBits = .fat12) {e v : Nat}
    (hodd : e % 2 = 1) (hv : v < 4096)
    (h0 : sb.byte d' (e + e / 2) = (v * 16 + sb.byte d (e + e / 2) % 16) % 256)
    (h1 : sb.byte d' (e + e / 2 + 1) = v / 16 % 256)
    (hrest : ∀ j, j ≠ e + e / 2 → j ≠ e + e / 2 + 1 → sb.byte d' j = sb.byte d j) :
    sb.Replaces d d' e v := by
  intro e'
  rw [fatWord12 ht, fatWord12 ht]
  by_cases he : e' = e
  · rw [if_pos he, he, if_pos hodd, h0, h1]
    omega
  · rw [if_neg he]
    by_cases hnext : e' + 1 = e
    · have hshare : e' + e' / 2 + 1 = e + e / 2 := by omega
      rw [if_neg (by omega), if_neg (by omega), hshare, h0, hrest _ (by omega) (by omega)]
      omega
    · rw [hrest _ (by omega) (by omega), hrest _ (by omega) (by omega)]

/-- The bytes of an even entry were written; the odd entry after it shares the second one. -/
private theorem fatWord12_of_even (ht : sb.fatBits = .fat12) {e v : Nat}
    (heven : e % 2 = 0) (hv : v < 4096)
    (h0 : sb.byte d' (e + e / 2) = v % 256)
    (h1 : sb.byte d' (e + e / 2 + 1) = (sb.byte d (e + e / 2 + 1) / 16 * 16 + v / 256) % 256)
    (hrest : ∀ j, j ≠ e + e / 2 → j ≠ e + e / 2 + 1 → sb.byte d' j = sb.byte d j) :
    sb.Replaces d d' e v := by
  intro e'
  have hb := sb.byte_lt d (e + e / 2 + 1)
  rw [fatWord12 ht, fatWord12 ht]
  by_cases he : e' = e
  · rw [if_pos he, he, if_neg (by omega), h0, h1]
    omega
  · rw [if_neg he]
    by_cases hnext : e' = e + 1
    · have hshare : e' + e' / 2 = e + e / 2 + 1 := by omega
      rw [if_pos (by omega), if_pos (by omega), hshare, h1, hrest _ (by omega) (by omega)]
      omega
    · rw [hrest _ (by omega) (by omega), hrest _ (by omega) (by omega)]

private theorem put12 (ht : sb.fatBits = .fat12) (h : sb.At fe e)
    (d : FatDisk) (hx : storedEof 0xfff x < 4096) :
    sb.Replaces d (fat12EntPut d fe x) e (storedEof 0xfff x) := by
  have hq := h.q ht
  have hb0 := sb.byte_lt d (e + e / 2)
  have hb1 := sb.byte_lt d (e + e / 2 + 1)
  rw [fat12EntPut, h.entry, h.p, hq]
  simp only [and_one_eq_mod, ht, FatBits.pos]
  generalize storedEof 0xfff x = v at hx ⊢
  by_cases hodd : e % 2 = 1
  · rw [if_pos (by omega), byte_eq, show (0x0f : Nat) = 2 ^ 4 - 1 by decide,
      Nat.and_two_pow_sub_one_eq_mod, ← Nat.shiftLeft_add_eq_or_of_lt (by omega), Nat.shiftLeft_eq,
      Nat.shiftRight_eq_div_pow]
    apply fatWord12_of_odd ht hodd hx
    · rw [byte_set, byte_set, if_neg (by omega), if_pos rfl]
    · rw [byte_set, if_pos rfl]
    · intro j hj hj'
      rw [byte_set, byte_set, if_neg hj', if_neg hj]
  · have hq' : sb.byte (d.set (sb.ptr (e + e / 2)) (v &&& 0xff)) (e + e / 2 + 1) =
        sb.byte d (e + e / 2 + 1) := by
      rw [byte_set, if_neg (by omega)]
    rw [if_neg (by omega), byte_eq, hq', and_0xf0 hb1, Nat.shiftRight_eq_div_pow,
      ← Nat.shiftLeft_add_eq_or_of_lt (by omega), Nat.shiftLeft_eq,
      show (0xff : Nat) = 2 ^ 8 - 1 by decide, Nat.and_two_pow_sub_one_eq_mod]
    apply fatWord12_of_even ht (by omega) hx
    · rw [byte_set, byte_set, if_neg (by omega), if_pos rfl, Nat.mod_mod]
    · rw [byte_set, if_pos rfl]
    · intro j hj hj'
      rw [byte_set, byte_set, if_neg hj', if_neg hj]

private theorem put16 (hv : sb.Valid) (ht : sb.fatBits = .fat16)
    (h : sb.At fe e) (d : FatDisk) (hx : storedEof 0xffff x < 65536) :
    sb.Replaces d (fat16EntPut d fe x) e (storedEof 0xffff x) := by
  intro e'
  rw [fat16EntPut, h.p]
  simp only [fatWord, ht, FatBits.pos, Nat.add_zero, FatDisk.setLe16,
    get_ptr_add hv (show 2 ∣ 512 by decide) (show 1 < 2 by decide)]
  by_cases he : e' = e
  · rw [if_pos he, he, byte_set, byte_set, byte_set, if_neg (by omega), if_pos rfl, if_pos rfl]
    omega
  · rw [if_neg he]
    simp only [byte_set]
    repeat rw [if_neg (by omega)]

private theorem put32 (hv : sb.Valid) (ht : sb.fatBits = .fat32)
    (h : sb.At fe e) (d : FatDisk) (hx : storedEof 0x0fffffff x < 268435456) :
    sb.Replaces d (fat32EntPut d fe x) e
      (sb.fatWord d e / 268435456 * 268435456 + storedEof 0x0fffffff x) := by
  intro e'
  have h4 : 4 ∣ 512 := by decide
  have hword : d.le32 (sb.ptr (4 * e)) = sb.fatWord d e := by
    simp only [fatWord, ht, FatBits.pos, Nat.add_zero, FatDisk.le32,
      get_ptr_add hv h4 (show 1 < 4 by decide), get_ptr_add hv h4 (show 2 < 4 by decide),
      get_ptr_add hv h4 (show 3 < 4 by decide), byte_eq]
  have hlt : sb.fatWord d e < 4294967296 := by
    have h0 := sb.byte_lt d (4 * e)
    have h1 := sb.byte_lt d (4 * e + 1)
    have h2 := sb.byte_lt d (4 * e + 2)
    have h3 := sb.byte_lt d (4 * e + 3)
    simp only [fatWord, ht, FatBits.pos, Nat.add_zero]
    omega
  have hp : fe.p = sb.ptr (4 * e) := by rw [h.p, ht, FatBits.pos]
  rw [fat32EntPut, hp, hword, and_0xf0000000 hlt, Nat.or_comm,
    ← Nat.shiftLeft_add_eq_or_of_lt hx, Nat.shiftLeft_eq]
  generalize storedEof 0x0fffffff x = v at hx ⊢
  generalize sb.fatWord d e = w at hlt ⊢
  rw [FatDisk.setLe32, get_ptr_add hv h4 (show 1 < 4 by decide),
    get_ptr_add hv h4 (show 2 < 4 by decide), get_ptr_add hv h4 (show 3 < 4 by decide)]
  simp only [fatWord, ht, FatBits.pos, Nat.add_zero, byte_set]
  by_cases he : e' = e
  · rw [if_pos he, he, if_neg (by omega), if_neg (by omega), if_neg (by omega), if_pos rfl,
      if_neg (by omega), if_neg (by omega), if_pos rfl, if_neg (by omega), if_pos rfl, if_pos rfl]
    omega
  · rw [if_neg he]
    repeat rw [if_neg (by omega)]

/-- `ent_put` replaces the number of the entry. -/
theorem entPut_at (hv : sb.Valid) (h : sb.At fe e) (d : FatDisk)
    (hx : x = fatEntEof ∨ x < sb.fatBits.maxFat + 2) :
    sb.Replaces d (sb.ops.entPut d fe x) e (sb.fatBits.enc x (sb.fatWord d e)) := by
  have hlt : storedEof sb.fatBits.eof x < sb.fatBits.modulus := by
    rw [storedEof]
    split
    next h => cases sb.fatBits <;> decide
    next h => exact Nat.lt_of_lt_of_le (hx.resolve_left h) (by cases sb.fatBits <;> decide)
  cases ht : sb.fatBits with
  | fat12 =>
    have hword : sb.fatWord d e < 4096 := by
      have h0 := sb.byte_lt d (e + e / 2)
      have h1 := sb.byte_lt d (e + e / 2 + 1)
      rw [fatWord12 ht]
      split <;> omega
    rw [ht] at hlt
    rw [ops_fat12 ht, FatBits.enc, FatBits.modulus, Nat.div_eq_of_lt hword, Nat.zero_mul,
      Nat.zero_add]
    exact put12 ht h d hlt
  | fat16 =>
    have hword : sb.fatWord d e < 65536 := by
      have h0 := sb.byte_lt d (2 * e)
      have h1 := sb.byte_lt d (2 * e + 1)
      simp only [fatWord, ht, FatBits.pos, Nat.add_zero]
      omega
    rw [ht] at hlt
    rw [ops_fat16 ht, FatBits.enc, FatBits.modulus, Nat.div_eq_of_lt hword, Nat.zero_mul,
      Nat.zero_add]
    exact put16 hv ht h d hlt
  | fat32 =>
    rw [ht] at hlt
    rw [ops_fat32 ht]
    exact put32 hv ht h d hlt

/-! ### Walking and looking up -/

/-- The entry of twelve bits after the one whose second byte is at `q`. -/
private theorem at_succ12 (ht : sb.fatBits = .fat12) {e : Nat} {q : BufPtr}
    (hq : q = sb.ptr (e + e / 2 + 1)) (hoff : q.off + 1 + e % 2 < sb.blocksize) :
    sb.At ⟨e + 1, [q.block], ⟨q.block, q.off + 1 + e % 2 - 1⟩, ⟨q.block, q.off + 1 + e % 2⟩⟩
      (e + 1) := by
  have hpos : (e + 1) + (e + 1) / 2 = e + e / 2 + 1 + e % 2 := by omega
  have hstart : sb.ptr ((e + 1) + (e + 1) / 2) = ⟨q.block, q.off + e % 2⟩ := by
    rw [hpos, hq, ptr_add]
    · rfl
    · rw [hq] at hoff
      show (sb.ptr _).off + _ < _
      omega
  have hsecond : sb.ptr ((e + 1) + (e + 1) / 2 + 1) = ⟨q.block, q.off + e % 2 + 1⟩ := by
    rw [hpos, Nat.add_assoc, hq, ptr_add]
    · rfl
    · rw [hq] at hoff
      show (sb.ptr _).off + _ < _
      omega
  refine ⟨rfl, ?_, ?_, ?_⟩
  · rw [blocks, if_neg]
    · rw [ht, FatBits.pos, hstart]
    · rintro ⟨-, hl⟩
      rw [ht, FatBits.pos, hstart] at hl
      dsimp only at hl
      omega
  · rw [ht, FatBits.pos, hstart]
    simp only [BufPtr.mk.injEq, true_and]
    omega
  · intro _
    rw [ht, FatBits.pos, hsecond]
    simp only [BufPtr.mk.injEq, true_and]
    omega

private theorem next12 (hv : sb.Valid) (ht : sb.fatBits = .fat12)
    (h : sb.At fe e) : (fat12EntNext sb fe).2.entry = e + 1 ∧
      ((fat12EntNext sb fe).1 = true → sb.At (fat12EntNext sb fe).2 (e + 1)) := by
  have hbs := hv.le_blocksize
  obtain ⟨entry, bhs, p, q⟩ := fe
  obtain ⟨rfl, hb, hp, hq⟩ := h
  have hlt := sb.ptr_off_lt (entry + entry / 2)
  have hq' : q = sb.ptr (entry + entry / 2 + 1) := by
    have := hq ht
    rw [ht, FatBits.pos] at this
    exact this
  rw [blocks] at hb
  simp only [ht, FatBits.pos, true_and] at hb
  rw [fat12EntNext]
  simp only [and_one_eq_mod]
  by_cases hlast : (sb.ptr (entry + entry / 2)).off + 1 = sb.blocksize
  · have hsucc := ptr_succ_of_last hlast
    have hoff : q.off = 0 := by rw [hq', hsucc]
    have hblock : q.block = (sb.ptr (entry + entry / 2)).block + 1 := by rw [hq', hsucc]
    rw [if_pos hlast, ← hblock] at hb
    rw [hb]
    exact ⟨rfl, fun _ => at_succ12 ht hq' (by omega)⟩
  · have hsucc : sb.ptr (entry + entry / 2 + 1) = (sb.ptr (entry + entry / 2)).add 1 :=
      ptr_add (show (sb.ptr _).off + 1 < _ by omega)
    have hblock : q.block = (sb.ptr (entry + entry / 2)).block := by rw [hq', hsucc, BufPtr.add]
    rw [if_neg hlast, ← hblock] at hb
    rw [hb]
    dsimp only
    split
    next hc => exact ⟨rfl, fun _ => at_succ12 ht hq' (by omega)⟩
    next hc => exact ⟨rfl, fun hf => absurd hf Bool.false_ne_true⟩

/-- Entries of two or four bytes. -/
private theorem next_of_size (hv : sb.Valid) {k : Nat} (hk : k ∣ 512) (hne : sb.fatBits ≠ .fat12)
    (hpos : ∀ e, sb.fatBits.pos e = k * e) (h : sb.At fe e) :
    (fatEntNextOfSize k sb fe).2.entry = e + 1 ∧
      ((fatEntNextOfSize k sb fe).1 = true → sb.At (fatEntNextOfSize k sb fe).2 (e + 1)) := by
  have hle := hv.off_add_le hk e
  obtain ⟨entry, bhs, p, q⟩ := fe
  obtain ⟨rfl, hb, hp, -⟩ := h
  dsimp only at hb hp
  rw [blocks_of_ne hne] at hb
  rw [fatEntNextOfSize]
  dsimp only
  split
  next hc =>
    rw [hp, hpos] at hc
    have hadd : sb.ptr (k * (entry + 1)) = (sb.ptr (k * entry)).add k := by
      rw [Nat.mul_succ]
      apply ptr_add
      show (sb.ptr (k * entry)).off + k < _
      omega
    refine ⟨rfl, fun _ => ⟨rfl, ?_, ?_, fun ht => absurd ht hne⟩⟩
    · rw [blocks_of_ne hne, hpos, hadd, hb, hpos]
      rfl
    · rw [hpos, hadd, hp, hpos]
  next hc => exact ⟨rfl, fun hf => absurd hf Bool.false_ne_true⟩

/-- `ent_next` moves to the next entry, or says that it needs another block. -/
theorem entNext_at (hv : sb.Valid) (h : sb.At fe e) :
    (sb.ops.entNext sb fe).2.entry = e + 1 ∧
      ((sb.ops.entNext sb fe).1 = true → sb.At (sb.ops.entNext sb fe).2 (e + 1)) := by
  cases ht : sb.fatBits with
  | fat12 =>
    rw [ops_fat12 ht]
    exact next12 hv ht h
  | fat16 =>
    rw [ops_fat16 ht]
    exact next_of_size hv (by decide) (by rw [ht]; decide) (fun e => by rw [ht, FatBits.pos]) h
  | fat32 =>
    rw [ops_fat32 ht]
    exact next_of_size hv (by decide) (by rw [ht]; decide) (fun e => by rw [ht, FatBits.pos]) h

/-- The entry has no buffers, or those of some entry. -/
def Held (sb : FatSb) (fe : FatEntry) : Prop := fe.bhs = [] ∨ ∃ e, fe.bhs = sb.blocks e

theorem At.held (h : sb.At fe e) : sb.Held fe := .inr ⟨e, h.bhs⟩

private theorem eq_singleton_of_blocks {b c e : Nat} {bs : List Nat} (h : b :: bs = sb.blocks e)
    (hc : bs.head? = some c) : bs = [c] := by
  rw [blocks] at h
  split at h
  · rw [(List.cons.inj h).2] at hc ⊢
    rw [Option.some.inj hc]
  · rw [(List.cons.inj h).2] at hc
    cases hc

/-- `fat_ent_update_ptr` only answers if it has the buffers of the entry. -/
theorem updatePtr_at {fe fe' : FatEntry} {e : Nat} (hheld : sb.Held fe) (he : fe.entry = e)
    (hu : fatEntUpdatePtr sb fe (sb.ptr (sb.fatBits.pos e)).off (sb.ptr (sb.fatBits.pos e)).block =
      some fe') : sb.At fe' e := by
  rw [fatEntUpdatePtr] at hu
  split at hu
  next => cases hu
  next b bs hbs =>
    obtain ⟨e', hb⟩ := hheld.resolve_left (by rw [hbs]; exact List.cons_ne_nil b bs)
    rw [hbs] at hb
    split at hu
    next => cases hu
    next hblk =>
      rw [not_not] at hblk
      split at hu
      next ht =>
        have hlt := sb.ptr_off_lt (sb.fatBits.pos e)
        split at hu
        next hc =>
          obtain rfl := Option.some.inj hu
          have hent : ({ fe with bhs := [b] } : FatEntry).entry = e := he
          apply at_setPtr hent
          rw [blocks, if_neg fun hl => by omega, hblk]
        next hc =>
          split at hu
          next => cases hu
          next hhead =>
            rw [not_not] at hhead
            obtain rfl := Option.some.inj hu
            apply at_setPtr he
            rw [hbs, hblk, eq_singleton_of_blocks hb hhead, blocks, if_pos ⟨ht, by omega⟩]
      next ht =>
        obtain rfl := Option.some.inj hu
        apply at_setPtr he
        rw [blocks_of_ne ht] at hb ⊢
        rw [hbs, hblk, (List.cons.inj hb).2]

/-- Without read errors `fat_ent_read` returns what the entry says. -/
theorem entRead_at (hv : sb.Valid) (hio : ∀ b, io.bread b = true) {fe : FatEntry}
    (hheld : sb.Held fe) {e : Nat} (h2 : 2 ≤ e) (hmax : e < sb.maxCluster) (d : FatDisk) :
    ∃ fe', fatEntRead sb io d fe e = .ok (sb.fatBits.dec (sb.fatWord d e), fe') ∧ sb.At fe' e := by
  have hrange : ¬ (e < fatStartEnt ∨ sb.maxCluster ≤ e) := by
    rw [fatStartEnt]
    omega
  rw [fatEntRead, if_neg hrange, blocknr_eq]
  dsimp only
  split
  next fe' hu =>
    have hat : sb.At fe' e := updatePtr_at (show sb.Held (fe.setEntry e) from hheld) rfl hu
    exact ⟨fe', by rw [entGet_at hv hat], hat⟩
  next hu =>
    obtain ⟨fe', he, hat⟩ := @entBread_at sb (fe.setEntry e).brelse e io hio rfl
    rw [he, ← entGet_at hv hat]
    exact ⟨fe', rfl, hat⟩

/-! ### The other copies of the table -/

theorem fatStart_le_of_mem_blocks {e b : Nat} (h : b ∈ sb.blocks e) : sb.fatStart ≤ b := by
  have hstart : sb.fatStart ≤ (sb.ptr (sb.fatBits.pos e)).block := Nat.le_add_right _ _
  rw [blocks] at h
  split at h
  · rw [List.mem_cons, List.mem_singleton] at h
    omega
  · rw [List.mem_singleton] at h
    omega

/-- The entries below `max_cluster` are in the first `fat_length` blocks. -/
theorem Valid.fatWord_congr (hv : sb.Valid)
    (h : ∀ i < sb.fatLength * sb.blocksize, sb.byte d' i = sb.byte d i) {e : Nat}
    (he : e < sb.maxCluster) : sb.fatWord d' e = sb.fatWord d e := by
  have hfits := hv.fits
  cases ht : sb.fatBits with
  | fat12 =>
    rw [ht, FatBits.size] at hfits
    rw [fatWord12 ht, fatWord12 ht, h _ (by omega), h _ (by omega)]
  | fat16 =>
    rw [ht, FatBits.size] at hfits
    simp only [fatWord, ht, FatBits.pos]
    rw [h _ (by omega), h _ (by omega)]
  | fat32 =>
    rw [ht, FatBits.size] at hfits
    simp only [fatWord, ht, FatBits.pos]
    rw [h _ (by omega), h _ (by omega), h _ (by omega), h _ (by omega)]

private theorem byte_copyBlock {d : FatDisk} {dst src i : Nat}
    (hdst : sb.fatStart + sb.fatLength ≤ dst) (hi : i < sb.fatLength * sb.blocksize) :
    sb.byte (d.copyBlock dst src) i = sb.byte d i := by
  have hlt : i / sb.blocksize < sb.fatLength := (Nat.div_lt_iff_lt_mul blocksize_pos).mpr hi
  have hne : (sb.ptr i).block ≠ dst := by
    show sb.fatStart + i / sb.blocksize ≠ dst
    omega
  rw [byte, byte, FatDisk.get, FatDisk.get, FatDisk.copyBlock, if_neg hne]

end FatSb

/-- No block operation fails. -/
structure FatIo.Ok (io : FatIo) : Prop where
  bread : ∀ b, io.bread b = true
  getblk : ∀ b, io.getblk b = true
  syncDirtyBuffer : ∀ b, io.syncDirtyBuffer b = 0
  syncBhs : ∀ bhs, io.syncBhs bhs = 0

namespace FatSb

variable {sb : FatSb}

private theorem mirrorLoop_spec {io : FatIo} (hio : io.Ok) (l : List (Nat × Nat)) (d : FatDisk)
    (hl : ∀ x ∈ l, 1 ≤ x.1 ∧ sb.fatStart ≤ x.2) :
    (mirrorLoop sb io l d).1 = 0 ∧ ∀ i < sb.fatLength * sb.blocksize,
      sb.byte (mirrorLoop sb io l d).2 i = sb.byte d i := by
  induction l generalizing d with
  | nil => exact ⟨rfl, fun _ _ => rfl⟩
  | cons x l ih =>
    obtain ⟨copy, b⟩ := x
    obtain ⟨hcopy, hb⟩ := hl (copy, b) List.mem_cons_self
    have hdst : sb.fatStart + sb.fatLength ≤ sb.fatLength * copy + b := by
      dsimp only at hcopy hb
      have := Nat.mul_le_mul_left sb.fatLength hcopy
      omega
    obtain ⟨herr, hbytes⟩ := ih (d.copyBlock (sb.fatLength * copy + b) b)
      fun y hy => hl y (List.mem_cons_of_mem _ hy)
    rw [mirrorLoop, if_neg (by rw [hio.getblk]; exact Bool.false_ne_true.symm),
      if_neg fun hs => hs.2 (hio.syncDirtyBuffer _)]
    refine ⟨herr, fun i hi => ?_⟩
    rw [hbytes i hi, byte_copyBlock hdst hi]

/-- Writing the buffers of the table back and to the other copies keeps the table. -/
theorem syncAndMirror_spec (hv : sb.Valid) {io : FatIo} (hio : io.Ok) (sync : Bool)
    {bhs : List Nat} (hb : ∀ b ∈ bhs, sb.fatStart ≤ b) (d : FatDisk) :
    (syncAndMirror sb io sync bhs d).1 = 0 ∧ ∀ e < sb.maxCluster,
      sb.fatWord (syncAndMirror sb io sync bhs d).2 e = sb.fatWord d e := by
  have hpairs : ∀ x ∈ (List.range' 1 (sb.fats - 1)).flatMap fun copy => bhs.map fun b => (copy, b),
      1 ≤ x.1 ∧ sb.fatStart ≤ x.2 := by
    intro x hx
    obtain ⟨copy, hcopy, hx⟩ := List.mem_flatMap.mp hx
    obtain ⟨b, hmem, rfl⟩ := List.mem_map.mp hx
    exact ⟨(List.mem_range'_1.mp hcopy).1, hb b hmem⟩
  obtain ⟨herr, hbytes⟩ := mirrorLoop_spec hio _ d hpairs
  rw [syncAndMirror, if_neg fun hs => hs.2 (hio.syncBhs bhs), fatMirrorBhs]
  exact ⟨herr, fun e he => hv.fatWord_congr hbytes he⟩

/-- Collected buffers are buffers of the table. -/
theorem fatStart_le_collect {bhs : List Nat} (hb : ∀ b ∈ bhs, sb.fatStart ≤ b) {fe : FatEntry}
    {e : Nat} (h : sb.At fe e) : ∀ b ∈ fatCollectBhs bhs fe, sb.fatStart ≤ b := by
  have hfold : ∀ (l acc : List Nat), (∀ b ∈ l, sb.fatStart ≤ b) → (∀ b ∈ acc, sb.fatStart ≤ b) →
      ∀ b ∈ l.foldl (fun acc b => if b ∈ acc then acc else acc ++ [b]) acc, sb.fatStart ≤ b := by
    intro l
    induction l with
    | nil => exact fun acc _ hacc => hacc
    | cons c l ih =>
      intro acc hl hacc
      apply ih _ fun b hb => hl b (List.mem_cons_of_mem c hb)
      intro b hb
      dsimp only at hb
      split at hb
      · exact hacc b hb
      · rcases List.mem_append.mp hb with hb | hb
        · exact hacc b hb
        · rw [List.mem_singleton.mp hb]
          exact hl c List.mem_cons_self
  apply hfold _ _ _ hb
  intro b hmem
  rw [h.bhs] at hmem
  exact fatStart_le_of_mem_blocks hmem

end FatSb
end LinuxStm32.Fs.Fat
