import Mathlib.Data.Nat.Bitwise

/-!
# Fields of a register

A field is `len` bits of a word from bit `off` on. `setField` is the read-modify-write a driver
does: it clears the bits of the field and sets those of the shifted value.
-/

namespace LinuxStm32.Base

variable {w : Nat} {x : BitVec w} {off len : Nat} {i j : Nat}

/-- A word whose low `len` bits are set. -/
def fieldMask (w len : Nat) : BitVec w := BitVec.ofNat w (2 ^ len - 1)

/-- Clear the field at `off` and set the bits of `v` there. -/
def setField (x : BitVec w) (off len : Nat) (v : BitVec w) : BitVec w :=
  (x &&& ~~~(fieldMask w len <<< off)) ||| (v <<< off)

/-- The value of the field at `off`. -/
def getField (x : BitVec w) (off len : Nat) : BitVec w := (x >>> off) &&& fieldMask w len

/-- The bits of a field. -/
def InField (off len i : Nat) : Prop := off ≤ i ∧ i < off + len

theorem fieldMask_bit {len i : Nat} (hi : i < w) :
    (fieldMask w len).getLsbD i = decide (i < len) := by
  rw [fieldMask, BitVec.getLsbD_ofNat, Nat.testBit_two_pow_sub_one]
  simp only [hi, decide_true, Bool.true_and]

/-- A value that fits into a field has no bit above it. -/
theorem bit_of_fits {v : BitVec w} {len i : Nat} (hv : v.toNat < 2 ^ len) (hi : len ≤ i) :
    v.getLsbD i = false := by
  apply Nat.testBit_eq_false_of_lt
  exact Nat.lt_of_lt_of_le hv (Nat.pow_le_pow_right Nat.zero_lt_two hi)

/-- Setting a field changes its bits to those of the value and keeps the others. -/
theorem setField_bit {x v : BitVec w} {off len i : Nat} (hv : v.toNat < 2 ^ len) (hi : i < w) :
    (setField x off len v).getLsbD i =
      if off ≤ i ∧ i < off + len then v.getLsbD (i - off) else x.getLsbD i := by
  simp only [setField, BitVec.getLsbD_or, BitVec.getLsbD_and, BitVec.getLsbD_not,
    BitVec.getLsbD_shiftLeft, hi, decide_true, Bool.true_and]
  by_cases hlo : i < off
  · rw [if_neg (by omega)]
    simp only [hlo, decide_true, Bool.not_true, Bool.false_and, Bool.not_false, Bool.and_true,
      Bool.or_false]
  · rw [fieldMask_bit (by omega)]
    simp only [hlo, decide_false, Bool.not_false, Bool.true_and]
    by_cases hin : i < off + len
    · rw [if_pos ⟨by omega, hin⟩]
      have hlt : i - off < len := by omega
      simp only [hlt, decide_true, Bool.not_true, Bool.and_false, Bool.false_or]
    · rw [if_neg (by omega), bit_of_fits hv (by omega)]
      have hlt : ¬ i - off < len := by omega
      simp only [hlt, decide_false, Bool.not_false, Bool.and_true, Bool.or_false]

/-- Bits outside the field are kept. -/
theorem setField_bit_of_not {x v : BitVec w} {off len i : Nat} (hv : v.toNat < 2 ^ len)
    (hi : ¬ InField off len i) : (setField x off len v).getLsbD i = x.getLsbD i := by
  by_cases hw : i < w
  · rw [setField_bit hv hw]
    exact if_neg hi
  · rw [BitVec.getLsbD_of_ge _ _ (Nat.le_of_not_lt hw),
      BitVec.getLsbD_of_ge _ _ (Nat.le_of_not_lt hw)]

theorem getField_bit {off len i : Nat} (hi : i < w) :
    (getField x off len).getLsbD i = (x.getLsbD (off + i) && decide (i < len)) := by
  rw [getField, BitVec.getLsbD_and, BitVec.getLsbD_ushiftRight, fieldMask_bit hi]

/-- A field reads back as what it was set to. -/
theorem getField_setField {x v : BitVec w} (hlen : off + len ≤ w)
    (hv : v.toNat < 2 ^ len) : getField (setField x off len v) off len = v := by
  apply BitVec.eq_of_getLsbD_eq
  intro i hi
  rw [getField_bit hi]
  by_cases hlt : i < len
  · rw [setField_bit hv (by omega), if_pos ⟨by omega, by omega⟩, Nat.add_sub_cancel_left]
    simp only [hlt, decide_true, Bool.and_true]
  · rw [bit_of_fits hv (by omega)]
    simp only [hlt, decide_false, Bool.and_false]

/-- A field is determined by its bits. -/
theorem getField_congr {x y : BitVec w}
    (h : ∀ i, InField off len i → x.getLsbD i = y.getLsbD i) :
    getField x off len = getField y off len := by
  apply BitVec.eq_of_getLsbD_eq
  intro i hi
  rw [getField_bit hi, getField_bit hi]
  by_cases hlt : i < len
  · rw [h (off + i) ⟨by omega, by omega⟩]
  · simp only [hlt, decide_false, Bool.and_false]

theorem getField_or {x y : BitVec w} :
    getField (x ||| y) off len = getField x off len ||| getField y off len := by
  apply BitVec.eq_of_getLsbD_eq
  intro i hi
  rw [BitVec.getLsbD_or, getField_bit hi, getField_bit hi, getField_bit hi, BitVec.getLsbD_or,
    Bool.and_or_distrib_right]

/-- A value shifted into place reads back. -/
theorem getField_shiftLeft {v : BitVec w} (hlen : off + len ≤ w)
    (hv : v.toNat < 2 ^ len) : getField (v <<< off) off len = v := by
  apply BitVec.eq_of_getLsbD_eq
  intro i hi
  rw [getField_bit hi, BitVec.getLsbD_shiftLeft, Nat.add_sub_cancel_left]
  by_cases hlt : i < len
  · have hw : off + i < w := by omega
    simp [hlt, hw]
  · rw [bit_of_fits hv (by omega)]
    simp

/-- Fields beside each other can be set in either order. -/
theorem setField_comm {x v v' : BitVec w} {off len off' len' : Nat} (hv : v.toNat < 2 ^ len)
    (hv' : v'.toNat < 2 ^ len') (hd : off' + len' ≤ off ∨ off + len ≤ off') :
    setField (setField x off len v) off' len' v' =
      setField (setField x off' len' v') off len v := by
  apply BitVec.eq_of_getLsbD_eq
  intro i hi
  rw [setField_bit hv' hi, setField_bit hv hi, setField_bit hv hi, setField_bit hv' hi]
  by_cases h1 : off ≤ i ∧ i < off + len
  · rw [if_neg (by omega), if_pos h1, if_pos h1]
  · rw [if_neg h1, if_neg h1]

/-! ### Single bits -/

/-- Set a bit. -/
def setBit (x : BitVec w) (i : Nat) : BitVec w := x ||| (1#w <<< i)

/-- Clear a bit. -/
def clearBit (x : BitVec w) (i : Nat) : BitVec w := x &&& ~~~(1#w <<< i)

theorem one_shiftLeft_bit (hj : j < w) :
    (1#w <<< i).getLsbD j = decide (i = j) := by
  have hw : 0 < w := Nat.zero_lt_of_lt hj
  rw [BitVec.getLsbD_shiftLeft, BitVec.getLsbD_one]
  by_cases hlt : j < i
  · have hne : i ≠ j := Nat.ne_of_gt hlt
    simp [hlt, hne]
  · by_cases he : i = j
    · simp [he, hw, hj]
    · have hsub : j - i ≠ 0 := by omega
      simp [he, hsub]

theorem setBit_bit (hj : j < w) :
    (setBit x i).getLsbD j = (x.getLsbD j || decide (i = j)) := by
  rw [setBit, BitVec.getLsbD_or, one_shiftLeft_bit hj]

theorem setBit_bit_of_ne (h : i ≠ j) :
    (setBit x i).getLsbD j = x.getLsbD j := by
  by_cases hj : j < w
  · rw [setBit_bit hj, decide_eq_false h, Bool.or_false]
  · rw [BitVec.getLsbD_of_ge _ _ (Nat.le_of_not_lt hj),
      BitVec.getLsbD_of_ge _ _ (Nat.le_of_not_lt hj)]

theorem clearBit_bit :
    (clearBit x i).getLsbD j = (x.getLsbD j && !decide (i = j)) := by
  by_cases hj : j < w
  · rw [clearBit, BitVec.getLsbD_and, BitVec.getLsbD_not, one_shiftLeft_bit hj]
    simp only [hj, decide_true, Bool.true_and]
  · rw [BitVec.getLsbD_of_ge _ _ (Nat.le_of_not_lt hj),
      BitVec.getLsbD_of_ge _ _ (Nat.le_of_not_lt hj),
      Bool.false_and]

/-- Set or clear a bit. -/
def putBit (x : BitVec w) (i : Nat) (b : Bool) : BitVec w := if b then setBit x i else clearBit x i

theorem putBit_bit {b : Bool} (hj : j < w) :
    (putBit x i b).getLsbD j = if i = j then b else x.getLsbD j := by
  cases b with
  | false =>
    rw [putBit, if_neg Bool.false_ne_true, clearBit_bit]
    by_cases h : i = j
    · rw [if_pos h, decide_eq_true h, Bool.not_true, Bool.and_false]
    · rw [if_neg h, decide_eq_false h, Bool.not_false, Bool.and_true]
  | true =>
    rw [putBit, if_pos rfl, setBit_bit hj]
    by_cases h : i = j
    · rw [if_pos h, decide_eq_true h, Bool.or_true]
    · rw [if_neg h, decide_eq_false h, Bool.or_false]

end LinuxStm32.Base
