import Mathlib.Logic.Function.Basic

/-!
# Rings

A ring of `n` slots between a producer and a consumer that both go round it. `made` lists all
entries produced so far and `c` counts those consumed: entry number `k` is in slot `k % n`, from
when it was produced until it is consumed; all other slots are free.
-/

namespace LinuxStm32.Base

universe u

variable {α : Type u} {n : Nat}

/-- What a ring holds. -/
structure Ring (n : Nat) (free : α → Prop) (slot : Nat → α) (made : List α) (c : Nat) : Prop where
  le : c ≤ made.length
  room : made.length ≤ c + n
  entry : ∀ k, c ≤ k → k < made.length → made[k]? = some (slot (k % n))
  used : ∀ x ∈ made, ¬ free x
  free : ∀ k, made.length ≤ k → k < c + n → free (slot (k % n))

namespace Ring

variable {free : α → Prop} {slot : Nat → α} {made : List α} {c : Nat}

private theorem mod_ne {j k : Nat} (hlt : j < k) (hk : k < j + n) : k % n ≠ j % n := by
  intro h
  have hmod : (k - j) % n = 0 := Nat.sub_mod_eq_zero_of_mod_eq h
  rw [Nat.mod_eq_of_lt (by omega)] at hmod
  omega

/-- An empty ring. -/
theorem empty (h : ∀ k < n, free (slot k)) : Ring n free slot [] 0 where
  le := Nat.le_refl 0
  room := Nat.zero_le _
  entry _ _ hk := absurd hk (Nat.not_lt_zero _)
  used _ hx := nomatch hx
  free k _ hk := by
    rw [Nat.mod_eq_of_lt (by omega)]
    exact h k (by omega)

/-- The consumer's slot is used exactly when an entry is left. -/
theorem lt_iff (h : Ring n free slot made c) (hn : 0 < n) :
    c < made.length ↔ ¬ free (slot (c % n)) := by
  constructor
  · intro hlt
    exact h.used _ (List.mem_of_getElem? (h.entry c (Nat.le_refl c) hlt))
  · intro hused
    by_contra hge
    exact hused (h.free c (by omega) (by omega))

/-- The producer fills its slot. -/
theorem push (h : Ring n free slot made c) (hn : 0 < n) (hfree : free (slot (made.length % n)))
    {x : α} (hx : ¬ free x) :
    Ring n free (Function.update slot (made.length % n) x) (made ++ [x]) c := by
  have hroom : made.length < c + n := by
    by_contra hge
    have hlen : made.length = c + n := Nat.le_antisymm h.room (by omega)
    rw [hlen, Nat.add_mod_right] at hfree
    exact (h.lt_iff hn).mp (by omega) hfree
  have hle := h.le
  refine ⟨?_, ?_, fun k hck hk => ?_, fun y hy => ?_, fun k hk hkc => ?_⟩
  · rw [List.length_append]
    omega
  · rw [List.length_append, List.length_singleton]
    omega
  · rw [List.length_append, List.length_singleton] at hk
    by_cases hlast : k = made.length
    · rw [hlast, Function.update_self, List.getElem?_concat_length]
    · have hne := mod_ne (n := n) (show k < made.length by omega) (by omega)
      rw [Function.update_of_ne hne.symm, List.getElem?_append_left (by omega)]
      exact h.entry k hck (by omega)
  · rcases List.mem_append.mp hy with hy | hy
    · exact h.used y hy
    · rw [List.mem_singleton.mp hy]
      exact hx
  · rw [List.length_append, List.length_singleton] at hk
    rw [Function.update_of_ne (mod_ne (by omega) (by omega))]
    exact h.free k (by omega) hkc

/-- The consumer frees its slot. -/
theorem pop (h : Ring n free slot made c) (hlt : c < made.length) {x : α} (hx : free x) :
    Ring n free (Function.update slot (c % n) x) made (c + 1) := by
  have hroom := h.room
  refine ⟨hlt, by omega, fun k hck hk => ?_, h.used, fun k hk hkc => ?_⟩
  · rw [Function.update_of_ne (mod_ne (by omega) (by omega))]
    exact h.entry k (by omega) hk
  · by_cases hlast : k = c + n
    · rw [hlast, Nat.add_mod_right, Function.update_self]
      exact hx
    · rw [Function.update_of_ne (mod_ne (by omega) (by omega))]
      exact h.free k hk (by omega)

end Ring
end LinuxStm32.Base
