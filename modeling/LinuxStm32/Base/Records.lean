import Mathlib.Data.List.Infix

/-!
# Records between separators in a buffer

A buffer starts with a separator and holds records, each followed by one. A record without
separators is in the buffer if and only if it stands there between two separators, wherever that
is; so a search for the substring finds exactly the records.
-/

namespace LinuxStm32.Base

universe u

variable {α : Type u} {sep : α}

/-- The buffer that holds these records. -/
def records (sep : α) (l : List (List α)) : List α := sep :: l.flatMap fun x => x ++ [sep]

theorem records_nil (sep : α) : records sep [] = [sep] := rfl

theorem records_cons (sep : α) (x : List α) (l : List (List α)) :
    records sep (x :: l) = sep :: (x ++ records sep l) := by
  simp [records]

/-- A record is added at the end. -/
theorem records_concat (sep : α) (l : List (List α)) (x : List α) :
    records sep (l ++ [x]) = records sep l ++ x ++ [sep] := by
  simp [records]

/-- Lists without separators are determined by where the first separator stands. -/
theorem eq_of_append_sep {x y r s : List α} (hx : sep ∉ x) (hy : sep ∉ y)
    (h : x ++ sep :: r = y ++ sep :: s) : x = y := by
  induction x generalizing y with
  | nil =>
    cases y with
    | nil => rfl
    | cons b y =>
      rw [List.nil_append, List.cons_append, List.cons.injEq] at h
      exact absurd (h.1 ▸ List.mem_cons_self) hy
  | cons a x ih =>
    cases y with
    | nil =>
      rw [List.nil_append, List.cons_append, List.cons.injEq] at h
      exact absurd (h.1 ▸ List.mem_cons_self) hx
    | cons b y =>
      rw [List.cons_append, List.cons_append, List.cons.injEq] at h
      rw [h.1,
        ih (fun hm => hx (List.mem_cons_of_mem _ hm)) (fun hm => hy (List.mem_cons_of_mem _ hm))
        h.2]

/-- Behind a text without separators a separator can only stand in what follows the text. -/
theorem exists_of_append_sep {p x r s : List α} (hx : sep ∉ x) (h : p ++ sep :: r = x ++ s) :
    ∃ q, p = x ++ q ∧ q ++ sep :: r = s := by
  rcases List.append_eq_append_iff.mp h with ⟨q, hq, hs⟩ | ⟨q, hq, hs⟩
  · cases q with
    | nil =>
      rw [List.append_nil] at hq
      exact ⟨[], by simp [hq], hs⟩
    | cons b q =>
      rw [List.cons_append, List.cons.injEq] at hs
      exact absurd (by rw [hq, hs.1]; simp) hx
  · exact ⟨q, hq, hs.symm⟩

/-- A text without separators is a record if and only if it stands between two separators. -/
theorem infix_records_iff {l : List (List α)} (hl : ∀ x ∈ l, sep ∉ x) {x : List α}
    (hx : sep ∉ x) : (sep :: x ++ [sep]) <:+: records sep l ↔ x ∈ l := by
  induction l with
  | nil =>
    refine ⟨fun h => ?_, fun h => absurd h List.not_mem_nil⟩
    have hlen := h.length_le
    simp only [records_nil, List.length_append, List.length_cons, List.length_nil] at hlen
    omega
  | cons y l ih =>
    have ih := ih fun z hz => hl z (List.mem_cons_of_mem _ hz)
    have hy := hl y List.mem_cons_self
    rw [List.mem_cons, ← ih, records_cons]
    constructor
    · rintro ⟨p, r, h⟩
      cases p with
      | nil =>
        left
        simp only [List.nil_append, List.cons_append, List.append_assoc, List.cons.injEq, true_and,
          records] at h
        exact eq_of_append_sep hx hy h
      | cons a p =>
        right
        simp only [List.cons_append, List.append_assoc, List.cons.injEq] at h
        obtain ⟨q, -, hq⟩ := exists_of_append_sep hy h.2
        exact ⟨q, r, by simpa using hq⟩
    · rintro (rfl | ⟨p, r, h⟩)
      · refine ⟨[], l.flatMap fun x => x ++ [sep], ?_⟩
        simp [records]
      · refine ⟨sep :: (y ++ p), r, ?_⟩
        rw [← h]
        simp

/-- The same, by positions: the separators stand at `i - 1` and behind the text. -/
theorem infix_iff_exists_index {b x : List α} :
    (sep :: x ++ [sep]) <:+: b ↔ ∃ i, 1 ≤ i ∧ i + x.length < b.length ∧ b[i - 1]? = some sep ∧
      b[i + x.length]? = some sep ∧ (b.drop i).take x.length = x := by
  constructor
  · rintro ⟨p, r, rfl⟩
    refine ⟨p.length + 1, by omega, by simp; omega, by simp, ?_, ?_⟩
    · have hidx : p.length + 1 + x.length - p.length = x.length + 1 := by omega
      rw [List.append_assoc, List.getElem?_append_right (by omega), hidx]
      simp
    · simp [List.drop_append, List.drop_eq_nil_of_le (Nat.le_succ p.length)]
  · rintro ⟨i, hi, hlt, hbefore, hbehind, htext⟩
    obtain ⟨i, rfl⟩ : ∃ k, i = k + 1 := ⟨i - 1, by omega⟩
    rw [Nat.add_sub_cancel] at hbefore
    refine ⟨b.take i, b.drop (i + 1 + x.length + 1), ?_⟩
    have hfirst : b.drop i = sep :: b.drop (i + 1) := by
      rw [List.drop_eq_getElem_cons (by omega), (List.getElem?_eq_some_iff.mp hbefore).2]
    have hlast : b.drop (i + 1 + x.length) = sep :: b.drop (i + 1 + x.length + 1) := by
      rw [List.drop_eq_getElem_cons hlt, (List.getElem?_eq_some_iff.mp hbehind).2]
    calc b.take i ++ (sep :: x ++ [sep]) ++ b.drop (i + 1 + x.length + 1)
        = b.take i ++ sep :: (x ++ b.drop (i + 1 + x.length)) := by rw [hlast]; simp
      _ = b.take i ++ sep :: ((b.drop (i + 1)).take x.length ++
            (b.drop (i + 1)).drop x.length) := by rw [htext, List.drop_drop]
      _ = b := by rw [List.take_append_drop, ← hfirst, List.take_append_drop]

end LinuxStm32.Base
