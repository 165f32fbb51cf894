import Mathlib.Data.List.Perm.Basic

/-!
# Search trees as their in-order sequences

A search tree that is only ever searched, walked in order, inserted into and erased from is
represented by the list of its nodes in order. Inserting finds the place by comparing with the
nodes; a node that compares equal to the new one stops the insertion. The shape of the tree and
its rebalancing are not visible to a caller.
-/

namespace LinuxStm32.Base

universe u

variable {α : Type u} {cmp : α → α → Ordering} {x : α}

/-- Insert a node; `none` when an equal one is there. -/
def treeInsert (cmp : α → α → Ordering) (x : α) : List α → Option (List α)
  | [] => some [x]
  | y :: t =>
    match cmp x y with
    | .lt => some (x :: y :: t)
    | .gt => (treeInsert cmp x t).map (y :: ·)
    | .eq => none

/-- A successful insertion adds the node and nothing else. -/
theorem treeInsert_perm {l l' : List α} (h : treeInsert cmp x l = some l') :
    l'.Perm (x :: l) := by
  induction l generalizing l' with
  | nil =>
    cases h
    exact .refl _
  | cons y t ih =>
    simp only [treeInsert] at h
    split at h
    · cases h
      exact .refl _
    · obtain ⟨t', ht, rfl⟩ := Option.map_eq_some_iff.mp h
      exact ((ih ht).cons y).trans (.swap x y t)
    · cases h

/-- Insertion into a sorted tree without an equal node succeeds and keeps the tree sorted. -/
theorem treeInsert_sorted {R : α → α → Prop} (htrans : ∀ {a b c}, R a b → R b c → R a c)
    {l : List α} (hlt : ∀ y ∈ l, cmp x y = .lt → R x y) (hgt : ∀ y ∈ l, cmp x y = .gt → R y x)
    (heq : ∀ y ∈ l, cmp x y ≠ .eq) (hl : l.Pairwise R) :
    ∃ l', treeInsert cmp x l = some l' ∧ l'.Pairwise R := by
  induction l with
  | nil => exact ⟨[x], rfl, List.pairwise_singleton _ _⟩
  | cons y t ih =>
    obtain ⟨hy, ht⟩ := List.pairwise_cons.mp hl
    simp only [treeInsert]
    split
    · next h =>
      have hxy := hlt y List.mem_cons_self h
      refine ⟨_, rfl, List.pairwise_cons.mpr ⟨fun z hz => ?_, hl⟩⟩
      rcases List.mem_cons.mp hz with rfl | hz
      · exact hxy
      · exact htrans hxy (hy z hz)
    · next h =>
      obtain ⟨t', he, hs⟩ := ih (fun z hz => hlt z (List.mem_cons_of_mem _ hz))
        (fun z hz => hgt z (List.mem_cons_of_mem _ hz))
        (fun z hz => heq z (List.mem_cons_of_mem _ hz)) ht
      rw [he]
      refine ⟨_, rfl, List.pairwise_cons.mpr ⟨fun z hz => ?_, hs⟩⟩
      rcases List.mem_cons.mp ((treeInsert_perm he).mem_iff.mp hz) with rfl | hz
      · exact hgt y List.mem_cons_self h
      · exact hy z hz
    · next h => exact absurd h (heq y List.mem_cons_self)

/-- Insertion fails only at an equal node, and in a sorted tree it meets every equal node. -/
theorem treeInsert_eq_none_iff {l : List α}
    (hl : l.Pairwise fun a b => cmp x a = .lt → cmp x b = .lt) :
    treeInsert cmp x l = none ↔ ∃ y ∈ l, cmp x y = .eq := by
  induction l with
  | nil => simp [treeInsert]
  | cons y t ih =>
    obtain ⟨hy, ht⟩ := List.pairwise_cons.mp hl
    have hrest : treeInsert cmp x t = none ↔ ∃ z ∈ t, cmp x z = .eq := ih ht
    simp only [treeInsert, List.mem_cons, exists_eq_or_imp]
    cases hcmp : cmp x y with
    | lt =>
      refine iff_of_false (by simp) ?_
      rintro (h | ⟨z, hz, h⟩)
      · cases h
      · rw [hy z hz hcmp] at h
        cases h
    | gt => simp [hrest]
    | eq => simp

/-- Of two members of a list ordered by `R`, one comes before the other, or they are equal. -/
theorem pairwise_trichotomy {R : α → α → Prop} {l : List α} (h : l.Pairwise R) {a b : α}
    (ha : a ∈ l) (hb : b ∈ l) : a = b ∨ R a b ∨ R b a := by
  induction l with
  | nil => cases ha
  | cons y t ih =>
    obtain ⟨hy, ht⟩ := List.pairwise_cons.mp h
    rcases List.mem_cons.mp ha with hay | hat
    · rcases List.mem_cons.mp hb with hby | hbt
      · exact .inl (hay.trans hby.symm)
      · exact .inr (.inl (hay ▸ hy b hbt))
    · rcases List.mem_cons.mp hb with hby | hbt
      · exact .inr (.inr (hby ▸ hy a hat))
      · exact ih ht hat hbt

end LinuxStm32.Base
