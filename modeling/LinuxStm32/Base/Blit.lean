import Mathlib.Logic.Basic

/-!
# Copies between memories

A memory gives a value to every address. `blit dst d src s n` is `dst` with the `n` cells from
`d` on replaced by those of `src` from `s` on; a copy in pieces is a copy of the whole.
-/

namespace LinuxStm32.Base

universe u

variable {α : Type u}

/-- Copy `n` cells of `src` from `s` on to `dst` from `d` on. -/
def blit (dst : Nat → α) (d : Nat) (src : Nat → α) (s n : Nat) : Nat → α :=
  fun a => if d ≤ a ∧ a < d + n then src (s + (a - d)) else dst a

variable {dst src : Nat → α} {d s n a : Nat}

theorem blit_of_mem (h : d ≤ a ∧ a < d + n) : blit dst d src s n a = src (s + (a - d)) := if_pos h

theorem blit_of_not_mem (h : ¬ (d ≤ a ∧ a < d + n)) : blit dst d src s n a = dst a := if_neg h

@[simp] theorem blit_zero (dst : Nat → α) (d : Nat) (src : Nat → α) (s : Nat) :
    blit dst d src s 0 = dst := by
  funext a
  exact blit_of_not_mem (by omega)

/-- Two copies side by side are one. -/
theorem blit_append (dst : Nat → α) (d : Nat) (src : Nat → α) (s n m : Nat) :
    blit (blit dst d src s n) (d + n) src (s + n) m = blit dst d src s (n + m) := by
  funext a
  by_cases hhigh : d + n ≤ a ∧ a < d + n + m
  · rw [blit_of_mem hhigh, blit_of_mem (by omega)]
    congr 1
    omega
  · rw [blit_of_not_mem hhigh]
    by_cases hlow : d ≤ a ∧ a < d + n
    · rw [blit_of_mem hlow, blit_of_mem (by omega)]
    · rw [blit_of_not_mem hlow, blit_of_not_mem (by omega)]

/-- Copies are equal when the copied cells are. -/
theorem blit_congr {src' : Nat → α} {s' : Nat} (h : ∀ k < n, src (s + k) = src' (s' + k)) :
    blit dst d src s n = blit dst d src' s' n := by
  funext a
  by_cases ha : d ≤ a ∧ a < d + n
  · rw [blit_of_mem ha, blit_of_mem ha, h _ (by omega)]
  · rw [blit_of_not_mem ha, blit_of_not_mem ha]

end LinuxStm32.Base
