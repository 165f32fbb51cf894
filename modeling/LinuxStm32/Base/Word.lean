import Mathlib.Logic.Basic

/-!
# 32-bit machine words

Unsigned words are natural numbers; each operation of the machine reduces its result
modulo `2 ^ 32 = 4294967296`. Every `unsigned long`, `size_t` and pointer of the
modelled programs is such a word. The lemmas say when an operation does not wrap.
-/

namespace LinuxStm32.Base

/-- Wrapping addition of words. -/
def wadd (a b : Nat) : Nat := (a + b) % 4294967296

/-- Wrapping subtraction of words. -/
def wsub (a b : Nat) : Nat := (a + 4294967296 - b) % 4294967296

/-- Wrapping multiplication of words. -/
def wmul (a b : Nat) : Nat := a * b % 4294967296

/-- `x & ~y`. -/
def andNot (x y : Nat) : Nat := x ^^^ (x &&& y)

/-- Size of a page in bytes; `PAGE_SIZE` with `PAGE_SHIFT` 12. -/
def pageSize : Nat := 4096

/-- Round a word down to a multiple of `n`, as `x & ~(n - 1)` does for a power of two. -/
def alignDown (x n : Nat) : Nat := x / n * n

/-- `ALIGN(x, n)` for a power of two `n`: the sum `x + (n - 1)` wraps before the masking. -/
def align (x n : Nat) : Nat := alignDown (wadd x (n - 1)) n

/-- `PAGE_ALIGN(x)`. -/
def pageAlign (x : Nat) : Nat := align x 4096

/-- A sum below `2 ^ 32` does not wrap. -/
theorem wadd_of_lt {a b : Nat} (h : a + b < 4294967296) : wadd a b = a + b :=
  Nat.mod_eq_of_lt h

/-- Subtracting a smaller word does not wrap. -/
theorem wsub_of_le {a b : Nat} (ha : a < 4294967296) (h : b ≤ a) : wsub a b = a - b := by
  unfold wsub
  omega

/-- A wrapped sum is a word. -/
theorem wadd_lt (a b : Nat) : wadd a b < 4294967296 := Nat.mod_lt _ (by decide)

/-- A wrapped difference is a word. -/
theorem wsub_lt (a b : Nat) : wsub a b < 4294967296 := Nat.mod_lt _ (by decide)

end LinuxStm32.Base
