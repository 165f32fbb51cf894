import Mathlib.Data.Finset.Card
import Mathlib.Logic.Relation

/-!
# Graphs of waiting parties

Who waits for whom, among finitely many waiters. An edge that closes no path closes no cycle, and
without cycles every chain of waiters ends.
-/

namespace LinuxStm32.Base

open Relation

universe u

variable {α : Type u} {r r' : α → α → Prop} {a b x y : α} {waiters : Finset α}

/-- Nobody waits for itself, directly or through others. -/
def Acyclic (r : α → α → Prop) : Prop := ∀ x, ¬ TransGen r x x

theorem Acyclic.mono (h : Acyclic r) (hr : ∀ x y, r' x y → r x y) : Acyclic r' :=
  fun x hx => h x (TransGen.mono hr _ _ hx)

theorem path_of_insert (h : TransGen (fun x y => r x y ∨ x = a ∧ y = b) x y) :
    TransGen r x y ∨ ReflTransGen r x a ∧ ReflTransGen r b y := by
  induction h with
  | single h =>
    rcases h with h | ⟨rfl, rfl⟩
    · exact .inl (.single h)
    · exact .inr ⟨.refl, .refl⟩
  | tail _ h ih =>
    rcases h with h | ⟨rfl, rfl⟩
    · exact ih.imp (·.tail h) (And.imp_right (·.tail h))
    · exact .inr ⟨ih.elim TransGen.to_reflTransGen And.left, .refl⟩

theorem Acyclic.insert (h : Acyclic r) (hab : ¬ ReflTransGen r b a) :
    Acyclic fun x y => r x y ∨ x = a ∧ y = b := by
  intro x hx
  rcases path_of_insert hx with hx | ⟨hxa, hbx⟩
  · exact h x hx
  · exact hab (hbx.trans hxa)

open Classical in
/-- The waiters on the way from a party on. -/
noncomputable def waitersFrom (r : α → α → Prop) (waiters : Finset α) (x : α) : Finset α :=
  waiters.filter (ReflTransGen r x)

theorem mem_waitersFrom :
    y ∈ waitersFrom r waiters x ↔ y ∈ waiters ∧ ReflTransGen r x y := by
  simp [waitersFrom]

/-- Following an edge leaves fewer waiters ahead. -/
theorem Acyclic.waitersFrom_lt (h : Acyclic r) (hx : x ∈ waiters)
    (hxy : r x y) : (waitersFrom r waiters y).card < (waitersFrom r waiters x).card := by
  refine Finset.card_lt_card (Finset.ssubset_iff_subset_ne.mpr ⟨fun w hw => ?_, fun heq => ?_⟩)
  · obtain ⟨hw, hpath⟩ := mem_waitersFrom.mp hw
    exact mem_waitersFrom.mpr ⟨hw, hpath.head hxy⟩
  · have hmem : x ∈ waitersFrom r waiters y := heq ▸ mem_waitersFrom.mpr ⟨hx, .refl⟩
    exact h x (.head' hxy (mem_waitersFrom.mp hmem).2)

/-- Every chain ends with a party that does not wait. -/
theorem Acyclic.exists_not_waiting (h : Acyclic r)
    (hw : ∀ x y, r x y → x ∈ waiters) (x : α) : ∃ y, ReflTransGen r x y ∧ ∀ z, ¬ r y z := by
  by_cases hx : ∃ y, r x y
  · obtain ⟨y, hxy⟩ := hx
    obtain ⟨z, hyz, hz⟩ := h.exists_not_waiting hw y
    exact ⟨z, hyz.head hxy, hz⟩
  · exact ⟨x, .refl, fun z hz => hx ⟨z, hz⟩⟩
termination_by (waitersFrom r waiters x).card
decreasing_by
  exact h.waitersFrom_lt (hw _ _ hxy) hxy

end LinuxStm32.Base
