import Mathlib.Algebra.Order.Group.Nat
import Mathlib.Algebra.Order.Ring.Nat

/-!
# One level of a hierarchical timing wheel

A level of a timing wheel has `2 ^ k` slots, each for a block of `2 ^ w` ticks: a deadline `d` is
in slot `d / 2 ^ w % 2 ^ k`. At every tick `n` that begins a block, the slot of that block is
emptied and its deadlines go to finer levels. A deadline waits as it should if its block has not
begun and begins within one turn of the wheel.
-/

namespace LinuxStm32.Base.Wheel

variable {w k n d : Nat}

/-- First tick of the block of a deadline. -/
def blockStart (w d : Nat) : Nat := d / 2 ^ w * 2 ^ w

/-- The deadline waits for a block that begins at tick `n` or later, within one turn. -/
structure Waits (w k n d : Nat) : Prop where
  le : n ≤ blockStart w d
  lt : blockStart w d < n + 2 ^ (w + k)

/-- The slot that is emptied at tick `n` is the one of the deadline. -/
def Hit (w k n d : Nat) : Prop := n % 2 ^ w = 0 ∧ n / 2 ^ w % 2 ^ k = d / 2 ^ w % 2 ^ k

theorem blockStart_le (w d : Nat) : blockStart w d ≤ d := Nat.div_mul_le_self d (2 ^ w)

theorem lt_blockStart_add (w d : Nat) : d < blockStart w d + 2 ^ w := by
  rw [blockStart, ← Nat.succ_mul]
  exact Nat.lt_mul_of_div_lt (Nat.lt_succ_self _) (Nat.two_pow_pos w)

/-- A deadline one block away or more waits, and its block has not begun. -/
theorem waits_of_le (h : n + 2 ^ w ≤ d) (hd : d < n + 2 ^ (w + k)) :
    n < blockStart w d ∧ Waits w k n d := by
  have hle := blockStart_le w d
  have hlt := lt_blockStart_add w d
  exact ⟨by omega, by omega, by omega⟩

/-- What is emptied at the beginning of a block are the deadlines of that block. -/
theorem Waits.of_hit (h : Waits w k n d) (hit : Hit w k n d) : n ≤ d ∧ d < n + 2 ^ w := by
  obtain ⟨hle, hlt⟩ := h
  obtain ⟨hzero, hslot⟩ := hit
  have hn : n / 2 ^ w * 2 ^ w = n := Nat.div_mul_cancel (Nat.dvd_of_mod_eq_zero hzero)
  have hpos := Nat.two_pow_pos w
  have hblock : d / 2 ^ w = n / 2 ^ w := by
    have hge : n / 2 ^ w ≤ d / 2 ^ w := by
      apply Nat.le_of_mul_le_mul_right _ hpos
      rw [hn]
      exact hle
    have hsmall : d / 2 ^ w < n / 2 ^ w + 2 ^ k := by
      apply Nat.lt_of_mul_lt_mul_right (a := 2 ^ w)
      rw [Nat.add_mul, hn, ← Nat.pow_add, Nat.add_comm k w]
      exact hlt
    have hmod : (d / 2 ^ w - n / 2 ^ w) % 2 ^ k = 0 := Nat.sub_mod_eq_zero_of_mod_eq hslot.symm
    rw [Nat.mod_eq_of_lt (by omega)] at hmod
    omega
  have hlast := lt_blockStart_add w d
  rw [blockStart, hblock, hn] at hle hlast
  have hfirst := blockStart_le w d
  rw [blockStart, hblock, hn] at hfirst
  exact ⟨hfirst, hlast⟩

/-- A deadline that is not emptied at the beginning of a block is not of that block. -/
theorem Waits.lt_of_not_hit (h : Waits w k n d) (hit : ¬ Hit w k n d) : n < blockStart w d := by
  apply Nat.lt_of_le_of_ne h.le
  intro heq
  apply hit
  rw [Hit, heq, blockStart]
  exact ⟨Nat.mul_mod_left _ _, by rw [Nat.mul_div_cancel _ (Nat.two_pow_pos w)]⟩

/-- The next tick. -/
theorem Waits.succ (h : Waits w k n d) (hlt : n < blockStart w d) : Waits w k (n + 1) d :=
  ⟨hlt, by have := h.lt; omega⟩

end LinuxStm32.Base.Wheel
