import Mathlib.Data.List.DropRight

/-!
# Tokens between separators

A list is cut at its separators; the tokens are the pieces that are not empty, which are the
maximal runs without a separator. The last piece ends with the list and not at a separator;
`tokensWith trim` passes it through `trim` first. Four equations determine the tokens: the empty
list, a separator, a token that a separator ends, and a list without separators.
-/

namespace LinuxStm32.Base

universe u

variable {α : Type u}

/-- Change the last entry of a list. -/
def mapLast (f : α → α) : List α → List α
  | [] => []
  | [x] => [f x]
  | x :: y :: l => x :: mapLast f (y :: l)

theorem mapLast_cons_of_ne_nil (f : α → α) (x : α) {l : List α} (h : l ≠ []) :
    mapLast f (x :: l) = x :: mapLast f l := by
  cases l with
  | nil => exact absurd rfl h
  | cons y l => rfl

section Tokens

variable (trim : List α → List α) (sep : α → Bool)

/-- The tokens of a list, the last piece trimmed. -/
def tokensWith (l : List α) : List (List α) :=
  (mapLast trim (l.splitOnP sep)).filter fun t => !t.isEmpty

/-- The maximal runs without a separator. -/
def runs (l : List α) : List (List α) := (l.splitOnP sep).filter fun t => !t.isEmpty

variable {trim sep}

theorem runs_eq_tokensWith (l : List α) : runs sep l = tokensWith id sep l := by
  have hid : ∀ k : List (List α), mapLast id k = k := by
    intro k
    induction k with
    | nil => rfl
    | cons x k ih =>
      cases k with
      | nil => rfl
      | cons y k => rw [mapLast, ih]
  rw [runs, tokensWith, hid]

theorem tokensWith_sep {c : α} (hc : sep c = true) (l : List α) :
    tokensWith trim sep (c :: l) = tokensWith trim sep l := by
  have hsplit : ([] ++ c :: l).splitOnP sep = [] :: l.splitOnP sep :=
    List.splitOnP_append_cons_of_forall_mem (by simp) c hc l
  rw [List.nil_append] at hsplit
  rw [tokensWith, hsplit, mapLast_cons_of_ne_nil _ _ (List.splitOnP_ne_nil _ _)]
  rfl

/-- Separators in front do not matter. -/
theorem tokensWith_seps {ds : List α} (hds : ∀ d ∈ ds, sep d = true) (l : List α) :
    tokensWith trim sep (ds ++ l) = tokensWith trim sep l := by
  induction ds with
  | nil => rfl
  | cons d ds ih =>
    rw [List.cons_append, tokensWith_sep (hds d List.mem_cons_self)]
    exact ih fun x hx => hds x (List.mem_cons_of_mem _ hx)

/-- A token that a separator ends. -/
theorem tokensWith_token {t : List α} (ht : ∀ x ∈ t, sep x = false) (hne : t ≠ []) {c : α}
    (hc : sep c = true) (l : List α) :
    tokensWith trim sep (t ++ c :: l) = t :: tokensWith trim sep l := by
  rw [tokensWith, List.splitOnP_append_cons_of_forall_mem ht c hc,
    mapLast_cons_of_ne_nil _ _ (List.splitOnP_ne_nil _ _)]
  exact List.filter_cons_of_pos (by simpa using hne)

/-- What stands behind the last separator. -/
theorem tokensWith_last {t : List α} (ht : ∀ x ∈ t, sep x = false) :
    tokensWith trim sep t = if trim t = [] then [] else [trim t] := by
  rw [tokensWith, List.splitOnP_eq_singleton ht]
  cases h : trim t <;> simp [mapLast, h]

/-- A list has no separator, or it starts with one, or with a token that a separator ends. -/
theorem token_cases (sep : α → Bool) (l : List α) :
    (∀ x ∈ l, sep x = false) ∨ (∃ c r, l = c :: r ∧ sep c = true) ∨
      ∃ t c r, l = t ++ c :: r ∧ t ≠ [] ∧ (∀ x ∈ t, sep x = false) ∧ sep c = true := by
  induction l with
  | nil => simp
  | cons x l ih =>
    cases hx : sep x with
    | true => exact .inr (.inl ⟨x, l, rfl, hx⟩)
    | false =>
      rcases ih with h | ⟨c, r, rfl, hc⟩ | ⟨t, c, r, rfl, -, ht, hc⟩
      · exact .inl (List.forall_mem_cons.mpr ⟨hx, h⟩)
      · exact .inr (.inr ⟨[x], c, r, rfl, by simp, by simpa using hx, hc⟩)
      · exact .inr (.inr ⟨x :: t, c, r, rfl, by simp, List.forall_mem_cons.mpr ⟨hx, ht⟩, hc⟩)

/-- Induction along the tokens of a list. -/
theorem token_induction {motive : List α → Prop} (sep : α → Bool)
    (last : ∀ t, (∀ x ∈ t, sep x = false) → motive t)
    (sepStep : ∀ c l, sep c = true → motive l → motive (c :: l))
    (token : ∀ t c l, t ≠ [] → (∀ x ∈ t, sep x = false) → sep c = true → motive l →
      motive (t ++ c :: l)) (l : List α) : motive l := by
  induction hn : l.length using Nat.strong_induction_on generalizing l with
  | _ n ih =>
    subst hn
    rcases token_cases sep l with h | ⟨c, r, rfl, hc⟩ | ⟨t, c, r, rfl, hne, ht, hc⟩
    · exact last l h
    · exact sepStep c r hc (ih _ (by simp) r rfl)
    · exact token t c r hne ht hc (ih _ (by simp; omega) r rfl)

/-- A list that ends with a separator has no last piece to trim. -/
theorem tokensWith_of_getLast (htrim : trim [] = []) {l : List α} {c : α}
    (hlast : l.getLast? = some c) (hc : sep c = true) : tokensWith trim sep l = runs sep l := by
  rw [runs_eq_tokensWith]
  suffices h : l = [] ∨ (∃ c, l.getLast? = some c ∧ sep c = true) →
      tokensWith trim sep l = tokensWith id sep l from h (.inr ⟨c, hlast, hc⟩)
  clear hlast hc
  induction l using token_induction sep with
  | last t ht =>
    rintro (rfl | ⟨c, hlast, hc⟩)
    · simp [tokensWith, mapLast, htrim]
    · exact absurd hc (by simp [ht c (List.mem_of_getLast? hlast)])
  | sepStep c l hc ih =>
    intro h
    rw [tokensWith_sep hc, tokensWith_sep hc]
    apply ih
    cases l with
    | nil => exact .inl rfl
    | cons x l =>
      simpa [List.getLast?_cons_cons] using h
  | token t c l hne ht hc ih =>
    intro h
    rw [tokensWith_token ht hne hc, tokensWith_token ht hne hc, ih]
    cases l with
    | nil => exact .inl rfl
    | cons x l =>
      rcases h with h | h
      · simp at h
      · rw [List.getLast?_append_of_ne_nil _ (by simp), List.getLast?_cons_cons] at h
        exact .inr h

/-- A run is not empty and has no separator. -/
theorem mem_runs {l t : List α} (h : t ∈ runs sep l) : t ≠ [] ∧ ∀ x ∈ t, sep x = false := by
  rw [runs_eq_tokensWith] at h
  induction l using token_induction sep with
  | last u hu =>
    rw [tokensWith_last hu] at h
    split_ifs at h with hnil
    · exact absurd h List.not_mem_nil
    · obtain rfl := List.mem_singleton.mp h
      exact ⟨hnil, hu⟩
  | sepStep c l hc ih =>
    rw [tokensWith_sep hc] at h
    exact ih h
  | token u c l hne hu hc ih =>
    rw [tokensWith_token hu hne hc] at h
    rcases List.mem_cons.mp h with rfl | h
    · exact ⟨hne, hu⟩
    · exact ih h

end Tokens

end LinuxStm32.Base
