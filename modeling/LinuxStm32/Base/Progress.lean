import LinuxStm32.Base.System
import Mathlib.Data.Nat.Init

/-!
# Infinite runs, weak fairness and the ranking rule

A task is something the system may be due to do; a run is fair if no task stays due forever
without being done. What is waited for leads to a goal if every step either reaches the goal,
or lowers a rank, or leaves rank and awaited task as they are and is not a step of that task.
-/

namespace LinuxStm32.Base.System

universe u v w

variable {σ : Type u} {α : Type v} {κ : Type w}

/-- An infinite run. -/
structure Run (m : System σ α) where
  state : Nat → σ
  act : Nat → α
  init : m.init (state 0)
  next : ∀ t, m.step (state t) (act t) = some (state (t + 1))

namespace Run

variable {m : System σ α}

/-- The states of a run are reachable. -/
theorem reach (r : m.Run) (t : Nat) : m.Reach Always (r.state t) := by
  induction t with
  | zero => exact .init r.init
  | succ t ih => exact .step ih trivial (r.next t)

/-- A task that is due at some time is done later, or is no longer due. -/
def Fair (r : m.Run) (due : κ → σ → Prop) (does : κ → α → Prop) : Prop :=
  ∀ t k, due k (r.state t) → ∃ t' ≥ t, does k (r.act t') ∨ ¬ due k (r.state t')

/-- The ranking rule. -/
theorem leads_to {r : m.Run} {due : κ → σ → Prop} {does : κ → α → Prop} (hf : r.Fair due does)
    (waits goal : σ → Prop) (task : σ → κ) (rank : σ → Nat)
    (hdue : ∀ t, waits (r.state t) → due (task (r.state t)) (r.state t))
    (hstep : ∀ t, waits (r.state t) → goal (r.state (t + 1)) ∨ waits (r.state (t + 1)) ∧
      (rank (r.state (t + 1)) < rank (r.state t) ∨
        rank (r.state (t + 1)) = rank (r.state t) ∧
        task (r.state (t + 1)) = task (r.state t) ∧ ¬ does (task (r.state t)) (r.act t)))
    {t : Nat} (h : waits (r.state t)) : ∃ t' > t, goal (r.state t') := by
  induction hn : rank (r.state t) using Nat.strong_induction_on generalizing t with
  | _ n ih =>
    obtain ⟨t', ht', hdone⟩ := hf t _ (hdue t h)
    -- Until `t'` some step reaches the goal or lowers the rank.
    obtain ⟨d, rfl⟩ := Nat.exists_eq_add_of_le ht'
    induction d generalizing t with
    | zero =>
      rcases hstep t h with hg | ⟨hw, hlt | ⟨_, _, hnot⟩⟩
      · exact ⟨t + 1, Nat.lt_succ_self t, hg⟩
      · obtain ⟨t'', hlt', hg⟩ := ih _ (hn ▸ hlt) hw rfl
        exact ⟨t'', by omega, hg⟩
      · rcases hdone with hdone | hdone
        · exact absurd hdone hnot
        · exact absurd (hdue t h) hdone
    | succ d ihd =>
      rcases hstep t h with hg | ⟨hw, hlt | ⟨heq, htask, _⟩⟩
      · exact ⟨t + 1, Nat.lt_succ_self t, hg⟩
      · obtain ⟨t'', hlt', hg⟩ := ih _ (hn ▸ hlt) hw rfl
        exact ⟨t'', by omega, hg⟩
      · have hshift : t + (d + 1) = t + 1 + d := by omega
        rw [hshift, ← htask] at hdone
        obtain ⟨t'', hlt', hg⟩ := ihd hw (heq.trans hn) (Nat.le_add_right _ _) hdone
        exact ⟨t'', by omega, hg⟩

private theorem exec_append (m : System σ α) (as bs : List α) (s : σ) :
    m.exec s (as ++ bs) = (m.exec s as).bind fun s' => m.exec s' bs := by
  induction as generalizing s with
  | nil => rfl
  | cons a as ih =>
    rw [List.cons_append, exec, exec, Option.bind_assoc]
    exact congrArg _ (funext ih)

private theorem exec_take_succ {m : System σ α} {s s' : σ} {as : List α}
    (he : m.exec s as = some s') {t : Nat} (ht : t < as.length) :
    ∃ u u', m.exec s (as.take t) = some u ∧ m.step u as[t] = some u' ∧
      m.exec s (as.take (t + 1)) = some u' := by
  have hsplit := exec_append m (as.take (t + 1)) (as.drop (t + 1)) s
  rw [List.take_append_drop, he] at hsplit
  obtain ⟨u', hu', _⟩ := Option.bind_eq_some_iff.mp hsplit.symm
  have htake : as.take (t + 1) = as.take t ++ [as[t]] := List.take_succ_eq_append_getElem ht
  have hlast := exec_append m (as.take t) [as[t]] s
  rw [← htake, hu'] at hlast
  obtain ⟨u, hu, hstep⟩ := Option.bind_eq_some_iff.mp hlast.symm
  refine ⟨u, u', hu, ?_, hu'⟩
  simpa [exec] using hstep

/-- A finite run that ends where the system can idle goes on idling forever. -/
def idling (m : System σ α) {s s' : σ} (as : List α) (idle : α) (hinit : m.init s)
    (he : m.exec s as = some s') (hidle : m.step s' idle = some s') : m.Run where
  state t := (m.exec s (as.take t)).getD s'
  act t := as[t]?.getD idle
  init := hinit
  next t := by
    by_cases ht : t < as.length
    · obtain ⟨u, u', hu, hstep, hu'⟩ := exec_take_succ he ht
      rw [hu, hu', List.getElem?_eq_getElem ht]
      exact hstep
    · have hall : ∀ k, as.length ≤ k → m.exec s (as.take k) = some s' := by
        intro k hk
        rw [List.take_of_length_le hk, he]
      rw [hall t (by omega), hall (t + 1) (by omega), List.getElem?_eq_none (by omega)]
      exact hidle

/-- Such a run is fair if nothing is due in the end. -/
theorem fair_idling {m : System σ α} {s s' : σ} {as : List α} {idle : α} {hinit : m.init s}
    {he : m.exec s as = some s'} {hidle : m.step s' idle = some s'} {due : κ → σ → Prop}
    {does : κ → α → Prop} (hnone : ∀ k, ¬ due k s') :
    (idling m as idle hinit he hidle).Fair due does := by
  intro t k _
  refine ⟨t + as.length, by omega, .inr ?_⟩
  have hstate : (idling m as idle hinit he hidle).state (t + as.length) = s' := by
    show (m.exec s (as.take (t + as.length))).getD s' = s'
    rw [List.take_of_length_le (by omega), he]
    rfl
  rw [hstate]
  exact hnone k

end Run
end LinuxStm32.Base.System
