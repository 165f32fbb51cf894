import Mathlib.Logic.Basic

/-!
# Labelled systems, guarded runs and the invariant rule

A system has a set of initial states and a partial step function; a label carries
every choice its environment makes, so a step is a function of state and label.
`Reach ok` collects the states of all runs whose steps satisfy `ok`; the guard
`Always` admits every run.
-/

namespace LinuxStm32.Base

universe u v

/-- Initial states and a partial step function; `none` marks a label that is not enabled. -/
structure System (σ : Type u) (α : Type v) where
  init : σ → Prop
  step : σ → α → Option σ

namespace System

variable {σ : Type u} {α : Type v} {m : System σ α}

/-- The guard that admits every step. -/
def Always : σ → α → Prop := fun _ _ => True

/-- States of the runs of `m` in which every step satisfies the guard `ok`. -/
inductive Reach (m : System σ α) (ok : σ → α → Prop) : σ → Prop
  | init {s : σ} : m.init s → Reach m ok s
  | step {s s' : σ} {a : α} : Reach m ok s → ok s a → m.step s a = some s' → Reach m ok s'

/-- What holds initially and is kept by every guarded step holds along every guarded run. -/
theorem Reach.invariant {ok : σ → α → Prop} {inv : σ → Prop}
    (hi : ∀ s, m.init s → inv s)
    (hs : ∀ s a s', inv s → ok s a → m.step s a = some s' → inv s')
    {s : σ} (h : m.Reach ok s) : inv s := by
  induction h with
  | init h0 => exact hi _ h0
  | step _ ha he ih => exact hs _ _ _ ih ha he

/-- A weaker guard reaches at least the same states. -/
theorem Reach.mono {p q : σ → α → Prop} (hpq : ∀ s a, p s a → q s a)
    {s : σ} (h : m.Reach p s) : m.Reach q s := by
  induction h with
  | init h0 => exact .init h0
  | step _ ha he ih => exact .step ih (hpq _ _ ha) he

/-- Execute a list of labels in order; `none` when one of them is not enabled. -/
def exec (m : System σ α) : σ → List α → Option σ
  | s, [] => some s
  | s, a :: as => (m.step s a).bind fun s' => exec m s' as

/-- A list of labels that the guard admits in every state leads to a state of a guarded run. -/
theorem reach_of_exec {ok : σ → α → Prop} {s s' : σ} (as : List α)
    (hs : m.Reach ok s) (hok : ∀ s, ∀ a ∈ as, ok s a) (he : m.exec s as = some s') :
    m.Reach ok s' := by
  induction as generalizing s with
  | nil =>
    simp only [exec, Option.some.injEq] at he
    exact he ▸ hs
  | cons a as ih =>
    simp only [exec, Option.bind_eq_some_iff] at he
    obtain ⟨t, ht, hr⟩ := he
    have hs' : m.Reach ok t := .step hs (hok s a List.mem_cons_self) ht
    exact ih hs' (fun s b hb => hok s b (List.mem_cons_of_mem _ hb)) hr

end System
end LinuxStm32.Base
