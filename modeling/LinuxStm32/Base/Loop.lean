import Mathlib.Order.Basic

/-!
# Loops that may fail

A loop is given by what one round does: it fails, goes on with a new state, or leaves with a
result. It is run with a bound on the number of rounds, so that a loop that never leaves has no
result under any bound. The rules for total correctness give a result under every bound above a
rank that goes down.
-/

namespace LinuxStm32.Base

universe u v w

section Pure

variable {σ : Type u} {ρ : Type v} {step : σ → Option (σ ⊕ ρ)}

/-- Run a loop for at most `fuel` rounds. -/
def loop (step : σ → Option (σ ⊕ ρ)) : Nat → σ → Option ρ
  | 0, _ => none
  | fuel + 1, s =>
    match step s with
    | none => none
    | some (.inl s') => loop step fuel s'
    | some (.inr r) => some r

/-- What a round may do so that the loop goes on with `next` or leaves with what is wanted. -/
def Outcome (next : σ → Prop) (Q : ρ → Prop) : Option (σ ⊕ ρ) → Prop
  | none => False
  | some (.inl s') => next s'
  | some (.inr r) => Q r

/-- Total correctness with an invariant that carries the rank of a state. -/
theorem loop_ranked (inv : Nat → σ → Prop) {Q : ρ → Prop}
    (hround : ∀ n s, inv n s → Outcome (fun s' => ∃ n' < n, inv n' s') Q (step s))
    {n fuel : Nat} {s : σ} (hs : inv n s) (hfuel : n < fuel) :
    ∃ r, loop step fuel s = some r ∧ Q r := by
  induction fuel generalizing n s with
  | zero => omega
  | succ fuel ih =>
    have h := hround n s hs
    unfold loop
    cases hstep : step s with
    | none =>
      rw [hstep] at h
      exact h.elim
    | some o =>
      rw [hstep] at h
      cases o with
      | inl s' =>
        obtain ⟨n', hlt, hs'⟩ := h
        exact ih hs' (by omega)
      | inr r => exact ⟨r, rfl, h⟩

/-- What a round may do so that the loop keeps an invariant, gets nearer to its end and leaves
with what is wanted. -/
def Round (inv : σ → Prop) (μ : σ → Nat) (Q : ρ → Prop) (s : σ) : Option (σ ⊕ ρ) → Prop :=
  Outcome (fun s' => inv s' ∧ μ s' < μ s) Q

/-- Total correctness with a measure of the state. -/
theorem loop_total {inv : σ → Prop} {μ : σ → Nat} {Q : ρ → Prop}
    (hround : ∀ s, inv s → Round inv μ Q s (step s)) {fuel : Nat} {s : σ} (hs : inv s)
    (hfuel : μ s < fuel) : ∃ r, loop step fuel s = some r ∧ Q r := by
  apply loop_ranked (fun n s => inv s ∧ μ s = n) _ ⟨hs, rfl⟩ hfuel
  rintro n s ⟨hs, rfl⟩
  have h := hround s hs
  unfold Round at h
  cases hstep : step s with
  | none =>
    rw [hstep] at h
    exact h
  | some o =>
    rw [hstep] at h
    cases o with
    | inl s' => exact ⟨μ s', h.2, h.1, rfl⟩
    | inr r => exact h

end Pure

section Stateful

variable {σ : Type u} {α β : Type u} {x : StateT σ Option α}
  {Q : α → σ → Prop} {R : β → σ → Prop} {s : σ} {f : α → StateT σ Option β}

/-- A computation on a state succeeds with a result and a state as wanted. -/
def Runs (x : StateT σ Option α) (s : σ) (Q : α → σ → Prop) : Prop :=
  ∃ a s', x s = some (a, s') ∧ Q a s'

theorem runs_pure {a : α} (h : Q a s) : Runs (pure a) s Q := ⟨a, s, rfl, h⟩

theorem Runs.bind (h : Runs x s fun a s' => Runs (f a) s' R) :
    Runs (x >>= f) s R := by
  obtain ⟨a, s', hx, b, s'', hf, hr⟩ := h
  refine ⟨b, s'', ?_, hr⟩
  change (x s).bind (fun p => f p.1 p.2) = _
  rw [hx]
  exact hf

theorem Runs.imp {Q' : α → σ → Prop} (h : Runs x s Q) (hq : ∀ a s', Q a s' → Q' a s') :
    Runs x s Q' := by
  obtain ⟨a, s', hx, hQ⟩ := h
  exact ⟨a, s', hx, hq a s' hQ⟩

theorem Runs.then (h : Runs x s Q) (hf : ∀ a s', Q a s' → Runs (f a) s' R) : Runs (x >>= f) s R :=
  (h.imp hf).bind

theorem runs_bind_of_eq {a : α} {s' : σ} (h : x s = some (a, s'))
    (hf : Runs (f a) s' R) : Runs (x >>= f) s R :=
  Runs.bind ⟨a, s', h, hf⟩

/-- A first step that only reads. -/
theorem runs_read {a : α} (h : x s = some (a, s)) (hf : Runs (f a) s R) : Runs (x >>= f) s R :=
  runs_bind_of_eq h hf

/-- A computation on a part of a larger state. -/
def onPart {τ : Type u} (part : τ → σ) (put : τ → σ → τ) (x : StateT σ Option α) :
    StateT τ Option α := fun t => (x (part t)).map fun r => (r.1, put t r.2)

theorem runs_onPart {τ : Type u} {part : τ → σ} {put : τ → σ → τ} {t : τ}
    (h : Runs x (part t) Q) :
    Runs (onPart part put x) t fun a t' => ∃ s', t' = put t s' ∧ Q a s' := by
  obtain ⟨a, s', hx, hq⟩ := h
  refine ⟨a, put t s', ?_, s', rfl, hq⟩
  rw [onPart, hx]
  rfl

/-- A loop of computations on a state, over a local variable. -/
def loopM (body : α → StateT σ Option (α ⊕ β)) (fuel : Nat) (a : α) : StateT σ Option β := fun s =>
  loop (fun p : α × σ => (body p.1 p.2).map fun
    | (.inl a', s') => .inl (a', s')
    | (.inr b, s') => .inr (b, s')) fuel (a, s)

/-- Total correctness of such a loop. -/
theorem runs_loopM {body : α → StateT σ Option (α ⊕ β)} (inv : Nat → α → σ → Prop)
    (hround : ∀ n a s, inv n a s → Runs (body a) s fun o s' =>
      o.elim (fun a' => ∃ n' < n, inv n' a' s') (fun b => R b s'))
    {n fuel : Nat} {a : α} (hs : inv n a s) (hfuel : n < fuel) :
    Runs (loopM body fuel a) s R := by
  have hranked : ∃ r : β × σ, loopM body fuel a s = some r ∧ R r.1 r.2 := by
    refine loop_ranked (fun n (p : α × σ) => inv n p.1 p.2) (fun n p hp => ?_)
      (s := (a, s)) hs hfuel
    obtain ⟨o, s', hbody, ho⟩ := hround n p.1 p.2 hp
    rw [hbody]
    cases o with
    | inl a' => exact ho
    | inr b => exact ho
  obtain ⟨⟨b, s'⟩, hloop, hr⟩ := hranked
  exact ⟨b, s', hloop, hr⟩

end Stateful

end LinuxStm32.Base
