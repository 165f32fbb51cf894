import LinuxStm32.Base.Blit
import LinuxStm32.Base.Loop
import LinuxStm32.Base.Word
import Mathlib.Algebra.Order.Ring.Int

/-!
# Block copies of the NOR flash mapper

Model of `drivers/mtd/maps/stm32f4.c:171–203, 229–275`. While the flash is accessed the SDRAM is
stopped, so the data go through a buffer in SRAM, in units of 16 bits. `flash` is addressed from
`map->phys` on, `sram` from `sram_buffer_start` on. A 16-bit access to the flash at an odd
address and any access outside the buffer give no result. The loop over the units ends when
`sr_len` is 0; `sr_len` is a word, so from an odd length it would not end there. The stopping of
the SDRAM and the delays are left out.
-/

namespace LinuxStm32.Drivers.Mtd

open Base

/-- The memories that a copy reads and writes. -/
structure FlashMem where
  flash : Nat → UInt8
  sram : Nat → UInt8
  ram : Nat → UInt8

/-- The way a copy goes. -/
inductive Direction
  | fromFlash
  | toFlash
  deriving DecidableEq, Repr

/-- The variables of the loop over the units, and the memory that it writes. -/
structure UnitVars where
  i : Nat
  srFlash : Nat
  srLen : Nat
  dst : Nat → UInt8

/-- One round of the loops of `sram_stm32f4_flash_copy_from` and `sram_stm32f4_flash_copy_to`. -/
def copyUnit (dir : Direction) (bufferSize : Nat) (src : Nat → UInt8) (v : UnitVars) :
    Option (UnitVars ⊕ (Nat → UInt8)) :=
  if v.srLen = 0 then some (.inr v.dst)
  else if v.i + 2 ≤ bufferSize ∧ v.srFlash % 2 = 0 then
    let dst := match dir with
      | .fromFlash => blit v.dst v.i src v.srFlash 2
      | .toFlash => blit v.dst v.srFlash src v.i 2
    some (.inl ⟨v.i + 2, v.srFlash + 2, wsub v.srLen 2, dst⟩)
  else none

/-- `sram_stm32f4_flash_copy_from`. -/
def sramFlashCopyFrom (bufferSize fuel srFlash srLen : Nat) (m : FlashMem) : Option FlashMem :=
  (loop (copyUnit .fromFlash bufferSize m.flash) fuel ⟨0, srFlash, srLen, m.sram⟩).map fun sram =>
    { m with sram }

/-- `sram_stm32f4_flash_copy_to`. -/
def sramFlashCopyTo (bufferSize fuel srFlash srLen : Nat) (m : FlashMem) : Option FlashMem :=
  (loop (copyUnit .toFlash bufferSize m.sram) fuel ⟨0, srFlash, srLen, m.flash⟩).map fun flash =>
    { m with flash }

/-- The variables of a block copy: the offset in the flash, the address in RAM, what is left. -/
structure CopyVars where
  ofs : Nat
  addr : Nat
  len : Nat
  mem : FlashMem

/-- One round of `stm32f4_flash_copy_from`. -/
def flashCopyFromRound (bufferSize fuel : Nat) (v : CopyVars) :
    Option (CopyVars ⊕ FlashMem) :=
  if v.len = 0 then some (.inr v.mem)
  else
    let readLen := min v.len bufferSize
    (sramFlashCopyFrom bufferSize fuel v.ofs (align readLen 2) v.mem).map fun m =>
      .inl ⟨v.ofs + readLen, v.addr + readLen, v.len - readLen,
        { m with ram := blit m.ram v.addr m.sram 0 readLen }⟩

/-- `stm32f4_flash_copy_from`, `drivers/mtd/maps/stm32f4.c:229`. -/
def flashCopyFrom (bufferSize fuel dest ofs len : Nat) (m : FlashMem) : Option FlashMem :=
  loop (flashCopyFromRound bufferSize fuel) fuel ⟨ofs, dest, len, m⟩

/-- One round of `stm32f4_flash_copy_to`. -/
def flashCopyToRound (bufferSize fuel : Nat) (v : CopyVars) : Option (CopyVars ⊕ FlashMem) :=
  if v.len = 0 then some (.inr v.mem)
  else
    let readLen := min v.len bufferSize
    let m := { v.mem with sram := blit v.mem.sram 0 v.mem.ram v.addr readLen }
    (sramFlashCopyTo bufferSize fuel v.ofs (align readLen 2) m).map fun m =>
      .inl ⟨v.ofs + readLen, v.addr + readLen, v.len - readLen, m⟩

/-- `stm32f4_flash_copy_to`, `drivers/mtd/maps/stm32f4.c:253`. -/
def flashCopyTo (bufferSize fuel dest addr len : Nat) (m : FlashMem) : Option FlashMem :=
  loop (flashCopyToRound bufferSize fuel) fuel ⟨dest, addr, len, m⟩

/-! ### The loop over the units -/

theorem align_two {n : Nat} (h : n < 2 ^ 31) : align n 2 = n + n % 2 := by
  unfold align alignDown
  rw [wadd_of_lt (by omega)]
  omega

/-- The copy that `n` rounds make. -/
def unitsCopied (dir : Direction) (dst src : Nat → UInt8) (srFlash n : Nat) : Nat → UInt8 :=
  match dir with
  | .fromFlash => blit dst 0 src srFlash (2 * n)
  | .toFlash => blit dst srFlash src 0 (2 * n)

/-- For an even length within the buffer the loop ends and has copied these bytes. -/
theorem copyUnits_total (dir : Direction) {bufferSize fuel srFlash n : Nat}
    (dst src : Nat → UInt8) (hn : 2 * n ≤ bufferSize) (hword : 2 * n < 4294967296)
    (heven : srFlash % 2 = 0) (hfuel : n < fuel) :
    loop (copyUnit dir bufferSize src) fuel ⟨0, srFlash, 2 * n, dst⟩ =
      some (unitsCopied dir dst src srFlash n) := by
  -- after `k` rounds the two addresses are `2 * k` further, and `2 * k` bytes are copied
  have hrun : ∃ r, loop (copyUnit dir bufferSize src) fuel ⟨0, srFlash, 2 * n, dst⟩ = some r ∧
      r = unitsCopied dir dst src srFlash n := by
    apply loop_ranked (fun left v => ∃ k, k + left = n ∧
      v = ⟨2 * k, srFlash + 2 * k, 2 * left, unitsCopied dir dst src srFlash k⟩) _ ?_ hfuel
    · rintro left v ⟨k, hk, rfl⟩
      unfold copyUnit
      dsimp only
      split_ifs with hzero hin
      · obtain rfl : k = n := by omega
        rfl
      · refine ⟨left - 1, by omega, k + 1, by omega, ?_⟩
        rw [wsub_of_le (by omega) (by omega), UnitVars.mk.injEq]
        refine ⟨by omega, by omega, by omega, ?_⟩
        cases dir <;> simp only [unitsCopied]
        · have hnext := blit_append dst 0 src srFlash (2 * k) 2
          rw [Nat.zero_add] at hnext
          exact hnext
        · have hnext := blit_append dst srFlash src 0 (2 * k) 2
          rw [Nat.zero_add] at hnext
          exact hnext
      · exact absurd ⟨by omega, by omega⟩ hin
    · refine ⟨0, Nat.zero_add n, ?_⟩
      cases dir <;> simp [unitsCopied]
  obtain ⟨r, hr, rfl⟩ := hrun
  exact hr

section Rounds

variable {bufferSize fuel : Nat} {v : CopyVars}

/-- The length of the next piece. -/
theorem align_piece (hbuf : bufferSize % 2 = 0) (hlen : v.len < 2 ^ 31) :
    ∃ n, align (min v.len bufferSize) 2 = 2 * n ∧ 2 * n ≤ bufferSize ∧ 2 * n ≤ v.len + 1 ∧
      min v.len bufferSize ≤ 2 * n := by
  rw [align_two (by omega)]
  refine ⟨(min v.len bufferSize + min v.len bufferSize % 2) / 2, ?_⟩
  omega

/-- One round of `copy_from` stores the bytes of its piece. -/
theorem flashCopyFromRound_eq (hbuf : bufferSize % 2 = 0) (hlen : v.len < 2 ^ 31)
    (hpos : v.len ≠ 0) (heven : v.ofs % 2 = 0) (hfuel : v.len + 1 < fuel) :
    ∃ sram, flashCopyFromRound bufferSize fuel v = some (.inl
      ⟨v.ofs + min v.len bufferSize, v.addr + min v.len bufferSize, v.len - min v.len bufferSize,
        ⟨v.mem.flash, sram, blit v.mem.ram v.addr v.mem.flash v.ofs (min v.len bufferSize)⟩⟩) := by
  obtain ⟨n, halign, hfit, hshort, hcover⟩ := align_piece hbuf hlen
  refine ⟨blit v.mem.sram 0 v.mem.flash v.ofs (2 * n), ?_⟩
  have hunits := @copyUnits_total .fromFlash bufferSize fuel v.ofs n v.mem.sram v.mem.flash hfit
    (by omega) heven (by omega)
  rw [flashCopyFromRound, if_neg hpos]
  simp only [sramFlashCopyFrom, halign, hunits, unitsCopied, Option.map_some]
  have hram : blit v.mem.ram v.addr (blit v.mem.sram 0 v.mem.flash v.ofs (2 * n)) 0
      (min v.len bufferSize) = blit v.mem.ram v.addr v.mem.flash v.ofs (min v.len bufferSize) := by
    apply blit_congr
    intro k hk
    rw [blit_of_mem (by omega)]
    congr 1
    omega
  rw [hram]

/-- One round of `copy_to` stores its piece, and one byte of the buffer more when the piece has an
odd length. -/
theorem flashCopyToRound_eq (hbuf : bufferSize % 2 = 0) (hlen : v.len < 2 ^ 31)
    (hpos : v.len ≠ 0) (heven : v.ofs % 2 = 0) (hfuel : v.len + 1 < fuel) :
    flashCopyToRound bufferSize fuel v = some (.inl
      ⟨v.ofs + min v.len bufferSize, v.addr + min v.len bufferSize, v.len - min v.len bufferSize,
        ⟨blit v.mem.flash v.ofs (blit v.mem.sram 0 v.mem.ram v.addr (min v.len bufferSize)) 0
            (min v.len bufferSize + min v.len bufferSize % 2),
          blit v.mem.sram 0 v.mem.ram v.addr (min v.len bufferSize), v.mem.ram⟩⟩) := by
  obtain ⟨n, halign, hfit, hshort, hcover⟩ := align_piece hbuf hlen
  have htwo := align_two (n := min v.len bufferSize) (by omega)
  have hunits := @copyUnits_total .toFlash bufferSize fuel v.ofs n v.mem.flash
    (blit v.mem.sram 0 v.mem.ram v.addr (min v.len bufferSize)) hfit (by omega) heven (by omega)
  rw [flashCopyToRound, if_neg hpos]
  simp only [sramFlashCopyTo, halign, hunits, unitsCopied, Option.map_some]
  rw [← htwo, halign]

end Rounds

/-! ### Whole copies -/

section Copies

variable {bufferSize fuel len : Nat}

/-- `copy_from` ends and stores exactly the bytes of the flash. -/
theorem flashCopyFrom_total (hsize : 2 ≤ bufferSize) (hbuf : bufferSize % 2 = 0)
    (hlen : len < 2 ^ 31) {ofs : Nat} (heven : ofs % 2 = 0) (dest : Nat) (m : FlashMem)
    (hfuel : len + 1 < fuel) :
    ∃ m', flashCopyFrom bufferSize fuel dest ofs len m = some m' ∧
      m'.ram = blit m.ram dest m.flash ofs len ∧ m'.flash = m.flash := by
  -- `done` bytes are stored; only the last piece can end at an odd offset
  apply loop_ranked (fun left v => ∃ done sram, done + left = len ∧
    (left = 0 ∨ (ofs + done) % 2 = 0) ∧
    v = ⟨ofs + done, dest + done, left, ⟨m.flash, sram, blit m.ram dest m.flash ofs done⟩⟩) _ ?_
    (show len < fuel by omega)
  · rintro left v ⟨done, sram, hdone, hparity, rfl⟩
    by_cases hzero : left = 0
    · rw [flashCopyFromRound, if_pos hzero]
      obtain rfl : done = len := by omega
      exact ⟨rfl, rfl⟩
    · obtain ⟨sram', hround⟩ := @flashCopyFromRound_eq bufferSize fuel ⟨ofs + done, dest + done,
        left, ⟨m.flash, sram, blit m.ram dest m.flash ofs done⟩⟩ hbuf (by dsimp only; omega) hzero
        (by dsimp only; omega) (by dsimp only; omega)
      rw [hround]
      dsimp only
      rw [blit_append, Nat.add_assoc ofs, Nat.add_assoc dest]
      exact ⟨_, by omega, done + min left bufferSize, sram', by omega, by omega, rfl⟩
  · exact ⟨0, m.sram, Nat.zero_add _, .inr heven, by rw [blit_zero]; rfl⟩

/-- The byte of the buffer behind the last piece: the rest of the piece before it, or what the
buffer held before the copy. -/
def staleByte (bufferSize addr len : Nat) (m : FlashMem) : UInt8 :=
  if bufferSize < len then m.ram (addr + (len - bufferSize)) else m.sram len

/-- The bytes that `copy_to` stores. -/
def copySource (bufferSize addr len : Nat) (m : FlashMem) : Nat → UInt8 :=
  fun k => if k < len then m.ram (addr + k) else staleByte bufferSize addr len m

/-- What the buffer holds when `done` bytes are stored. -/
def BufferHolds (bufferSize addr done : Nat) (m : FlashMem) (sram : Nat → UInt8) : Prop :=
  done = 0 ∧ sram = m.sram ∨
    bufferSize ≤ done ∧ ∀ k < bufferSize, sram k = m.ram (addr + (done - bufferSize) + k)

/-- The byte behind a last piece that is shorter than the buffer. -/
theorem BufferHolds.stale {addr done left : Nat} {m : FlashMem} {sram : Nat → UInt8}
    (h : BufferHolds bufferSize addr done m sram) (hpos : 0 < left) (hlt : left < bufferSize) :
    sram left = staleByte bufferSize addr (done + left) m := by
  unfold staleByte
  rcases h with ⟨rfl, rfl⟩ | ⟨hle, hsram⟩
  · rw [if_neg (by omega), Nat.zero_add]
  · rw [if_pos (by omega), hsram left hlt]
    congr 1
    omega

/-- A piece put into the buffer holds the bytes to store from `done` on. -/
theorem BufferHolds.piece {addr done left : Nat} {m : FlashMem} {sram : Nat → UInt8}
    (h : BufferHolds bufferSize addr done m sram) (hbuf : bufferSize % 2 = 0) {k : Nat}
    (hk : k < min left bufferSize + min left bufferSize % 2) :
    blit sram 0 m.ram (addr + done) (min left bufferSize) (0 + k) =
      copySource bufferSize addr (done + left) m (0 + done + k) := by
  unfold copySource
  by_cases hin : k < min left bufferSize
  · rw [blit_of_mem (by omega), if_pos (by omega)]
    congr 1
    omega
  · obtain rfl : k = left := by omega
    rw [blit_of_not_mem (by omega), if_neg (by omega), Nat.zero_add]
    exact h.stale (by omega) (by omega)

/-- `copy_to` ends; it stores the source bytes and, for an odd length, one more byte. -/
theorem flashCopyTo_total (hsize : 2 ≤ bufferSize) (hbuf : bufferSize % 2 = 0)
    (hlen : len < 2 ^ 31) {dest : Nat} (heven : dest % 2 = 0) (addr : Nat) (m : FlashMem)
    (hfuel : len + 1 < fuel) :
    ∃ m', flashCopyTo bufferSize fuel dest addr len m = some m' ∧
      m'.flash = blit m.flash dest (copySource bufferSize addr len m) 0 (len + len % 2) := by
  apply loop_ranked (fun left v => ∃ done stored sram, done + left = len ∧
    (left = 0 ∧ stored = len + len % 2 ∨
      0 < left ∧ stored = done ∧ done % 2 = 0 ∧ BufferHolds bufferSize addr done m sram) ∧
    v = ⟨dest + done, addr + done, left,
      ⟨blit m.flash dest (copySource bufferSize addr len m) 0 stored, sram, m.ram⟩⟩) _ ?_
    (show len < fuel by omega)
  · rintro left v ⟨done, stored, sram, hdone, hstate, rfl⟩
    rcases hstate with ⟨rfl, rfl⟩ | ⟨hpos, rfl, hparity, hholds⟩
    · rw [flashCopyToRound, if_pos rfl]
      rfl
    · rw [flashCopyToRound_eq hbuf (by dsimp only; omega) (by dsimp only; omega)
        (by dsimp only; omega) (by dsimp only; omega)]
      dsimp only
      subst hdone
      rw [blit_congr fun k hk => hholds.piece hbuf hk, blit_append, Nat.add_assoc dest,
        Nat.add_assoc addr]
      refine ⟨left - min left bufferSize, by omega, stored + min left bufferSize, _, _,
        by omega, ?_,
        rfl⟩
      by_cases hlast : left ≤ bufferSize
      · left
        rw [Nat.min_eq_left hlast]
        omega
      · right
        rw [Nat.min_eq_right (by omega)]
        refine ⟨by omega, by omega, by omega, .inr ⟨by omega, fun k hk => ?_⟩⟩
        rw [blit_of_mem (by omega)]
        congr 1
        omega
  · by_cases hzero : len = 0
    · subst hzero
      exact ⟨0, 0, m.sram, rfl, .inl ⟨rfl, rfl⟩, by rw [blit_zero]; rfl⟩
    · exact ⟨0, 0, m.sram, Nat.zero_add _, .inr ⟨by omega, rfl, rfl, .inl ⟨rfl, rfl⟩⟩,
        by rw [blit_zero]; rfl⟩

end Copies

/-! ### Exactness -/

/-- `copy_to` changes exactly the `len` bytes of the flash to the source bytes. -/
def CopyToExact (bufferSize fuel dest addr len : Nat) (m : FlashMem) : Prop :=
  ∃ m', flashCopyTo bufferSize fuel dest addr len m = some m' ∧
    m'.flash = blit m.flash dest m.ram addr len

/-- `copy_from` stores exactly the `len` bytes of the flash. -/
def CopyFromExact (bufferSize fuel dest ofs len : Nat) (m : FlashMem) : Prop :=
  ∃ m', flashCopyFrom bufferSize fuel dest ofs len m = some m' ∧
    m'.ram = blit m.ram dest m.flash ofs len ∧ m'.flash = m.flash

/-- One byte more is stored without effect only if the flash held it. -/
theorem blit_copySource_eq_iff {bufferSize dest addr len : Nat} {m : FlashMem} :
    blit m.flash dest (copySource bufferSize addr len m) 0 (len + len % 2) =
        blit m.flash dest m.ram addr len ↔
      len % 2 = 0 ∨ m.flash (dest + len) = staleByte bufferSize addr len m := by
  have hsource : ∀ a, dest ≤ a → a < dest + len →
      copySource bufferSize addr len m (0 + (a - dest)) = m.ram (addr + (a - dest)) := by
    intro a _ _
    rw [copySource, if_pos (by omega), Nat.zero_add]
  have hend : copySource bufferSize addr len m (0 + (dest + len - dest)) =
      staleByte bufferSize addr len m := by
    rw [copySource, if_neg (by omega)]
  constructor
  · intro heq
    by_cases hodd : len % 2 = 0
    · exact .inl hodd
    · have hbyte := congrFun heq (dest + len)
      rw [blit_of_mem (by omega), blit_of_not_mem (by omega), hend] at hbyte
      exact .inr hbyte.symm
  · intro h
    funext a
    by_cases hin : dest ≤ a ∧ a < dest + len
    · rw [blit_of_mem (by omega), blit_of_mem hin, hsource a hin.1 hin.2]
    · rw [blit_of_not_mem hin]
      by_cases hlast : dest ≤ a ∧ a < dest + (len + len % 2)
      · obtain rfl : a = dest + len := by omega
        rw [blit_of_mem hlast, hend]
        rcases h with h | h
        · omega
        · exact h.symm
      · exact blit_of_not_mem hlast

/-- Both copies end with every access inside the buffer. `copy_from` is exact. `copy_to` is exact
if and only if the length is even or the flash byte behind the range equals the byte that the
buffer has behind the last piece. -/
theorem flash_copies_exact_iff (bufferSize : Nat) (hsize : 2 ≤ bufferSize)
    (hbuf : bufferSize % 2 = 0) (ofs : Nat) (heven : ofs % 2 = 0) (len : Nat) (hlen : len < 2 ^ 31)
    (addr : Nat) (m : FlashMem) (fuel : Nat) (hfuel : len + 1 < fuel) :
    (∃ m', flashCopyTo bufferSize fuel ofs addr len m = some m') ∧
      (CopyToExact bufferSize fuel ofs addr len m ↔
        len % 2 = 0 ∨ m.flash (ofs + len) = staleByte bufferSize addr len m) ∧
      CopyFromExact bufferSize fuel addr ofs len m := by
  obtain ⟨m', hrun, hflash⟩ := flashCopyTo_total hsize hbuf hlen heven addr m hfuel
  refine ⟨⟨m', hrun⟩, ?_, flashCopyFrom_total hsize hbuf hlen heven addr m hfuel⟩
  rw [← blit_copySource_eq_iff, ← hflash]
  constructor
  · rintro ⟨m'', hrun', hexact⟩
    rw [hrun, Option.some.injEq] at hrun'
    rw [hrun', hexact]
  · intro hexact
    exact ⟨m', hrun, hexact⟩

/-- An erased flash, a buffer of zeros and a source of sevens. -/
def erasedFlash : FlashMem := ⟨fun _ => 0xff, fun _ => 0, fun _ => 7⟩

/-- A copy of three bytes through a buffer of two overwrites none but its own if the fourth byte
of the flash is a seven already. -/
theorem flash_copies_exact_three :
    CopyToExact 2 5 0 0 3 { erasedFlash with flash := fun _ => 7 } ∧
      CopyFromExact 2 5 0 0 3 { erasedFlash with flash := fun _ => 7 } := by
  have h := flash_copies_exact_iff 2 (by decide) (by decide) 0 (by decide) 3 (by decide) 0
    { erasedFlash with flash := fun _ => 7 } 5 (by decide)
  exact ⟨h.2.1.mpr (.inr rfl), h.2.2⟩

/-- A copy of one byte programs the next one too. -/
theorem flash_copy_to_one_spills :
    (∃ m', flashCopyTo 2 3 0 0 1 erasedFlash = some m' ∧ m'.flash 0 = 7 ∧ m'.flash 1 = 0) ∧
      erasedFlash.flash 1 = 0xff ∧ ¬ CopyToExact 2 3 0 0 1 erasedFlash := by
  refine ⟨⟨_, rfl, rfl, rfl⟩, rfl, ?_⟩
  rintro ⟨m', hrun, hexact⟩
  cases hrun
  have hbyte : (0 : UInt8) = 0xff := congrFun hexact 1
  exact absurd hbyte (by decide)

end LinuxStm32.Drivers.Mtd
