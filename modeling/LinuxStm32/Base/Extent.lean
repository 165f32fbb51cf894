import Mathlib.Data.List.Pairwise

/-!
# Sorted lists of labelled extents

An extent is a non-empty range of integers with a label. A canonical list holds disjoint extents
in the order of their positions, and never two of one label that touch. Such a list is a partial
function from the integers to the labels with finitely many changes; `assign` gives a whole range
a new label, or takes its label away, in one pass over the list.
-/

namespace LinuxStm32.Base

universe u

/-- The integers from `lo` to `hi`, both included, with a label. -/
structure Extent (α : Type u) where
  lo : Int
  hi : Int
  label : α
  deriving DecidableEq, Repr

namespace Extent

variable {α : Type u} {x : Extent α} {l : List (Extent α)}

/-- The position lies in the extent. -/
def Has (x : Extent α) (b : Int) : Prop := x.lo ≤ b ∧ b ≤ x.hi

instance (x : Extent α) (b : Int) : Decidable (x.Has b) := inferInstanceAs (Decidable (_ ∧ _))

/-- The one extent ends below the other, and does not touch it if their labels are the same. -/
def Before (x y : Extent α) : Prop := x.hi < y.lo ∧ (x.label = y.label → x.hi + 1 < y.lo)

/-- The label at a position. -/
def labelAt : List (Extent α) → Int → Option α
  | [], _ => none
  | x :: l, b => if x.Has b then some x.label else labelAt l b

/-- The extents are not empty, sorted and disjoint, and those of one label do not touch. -/
structure Canonical (l : List (Extent α)) : Prop where
  nonempty : ∀ x ∈ l, x.lo ≤ x.hi
  sorted : l.Pairwise Before

/-- The range with the new label, if there is one. -/
def emit (v : Option α) (s e : Int) : List (Extent α) := (v.map (Extent.mk s e)).toList

/-- Give the range from `s` to `e` the label `v`, in one pass over a sorted list. The range grows
over the extents of the same label that it meets or touches; those of other labels are cut. -/
def assign [DecidableEq α] (v : Option α) : Int → Int → List (Extent α) → List (Extent α)
  | s, e, [] => emit v s e
  | s, e, x :: l =>
    if v = some x.label then
      if x.hi < s - 1 then x :: assign v s e l
      else if e < x.lo - 1 then emit v s e ++ x :: l
      else assign v (min s x.lo) (max e x.hi) l
    else if x.hi < s then x :: assign v s e l
    else if e < x.lo then emit v s e ++ x :: l
    else
      (if x.lo < s then [{ x with hi := s - 1 }] else []) ++
        if e < x.hi then emit v s e ++ { x with lo := e + 1 } :: l else assign v s e l

/-! ### What an assignment does with the first extent -/

section Equations

variable [DecidableEq α] {v : Option α} {s e : Int}

theorem assign_skip (h : x.hi < s) (hv : v = some x.label → x.hi < s - 1) :
    assign v s e (x :: l) = x :: assign v s e l := by
  rw [assign]
  by_cases hx : v = some x.label
  · rw [if_pos hx, if_pos (hv hx)]
  · rw [if_neg hx, if_pos h]

theorem assign_stop (hs : s ≤ x.hi) (h : e < x.lo) (hv : v = some x.label → e < x.lo - 1) :
    assign v s e (x :: l) = emit v s e ++ x :: l := by
  rw [assign]
  by_cases hx : v = some x.label
  · rw [if_pos hx, if_neg (by omega), if_pos (hv hx)]
  · rw [if_neg hx, if_neg (by omega), if_pos h]

theorem assign_merge (hv : v = some x.label) (hs : s - 1 ≤ x.hi) (he : x.lo - 1 ≤ e) :
    assign v s e (x :: l) = assign v (min s x.lo) (max e x.hi) l := by
  rw [assign, if_pos hv, if_neg (by omega), if_neg (by omega)]

theorem assign_cover (hv : v ≠ some x.label) (hx : x.lo ≤ x.hi) (hs : s ≤ x.lo) (he : x.hi ≤ e) :
    assign v s e (x :: l) = assign v s e l := by
  rw [assign, if_neg hv, if_neg (by omega), if_neg (by omega), if_neg (by omega),
    if_neg (by omega), List.nil_append]

theorem assign_right (hv : v ≠ some x.label) (hs : s ≤ x.lo) (he : x.lo ≤ e) (h : e < x.hi) :
    assign v s e (x :: l) = emit v s e ++ { x with lo := e + 1 } :: l := by
  rw [assign, if_neg hv, if_neg (by omega), if_neg (by omega), if_neg (by omega), if_pos h,
    List.nil_append]

theorem assign_left (hv : v ≠ some x.label) (h : x.lo < s) (hs : s ≤ x.hi) (he : x.hi ≤ e) :
    assign v s e (x :: l) = { x with hi := s - 1 } :: assign v s e l := by
  rw [assign, if_neg hv, if_neg (by omega), if_neg (by omega), if_pos h, if_neg (by omega),
    List.singleton_append]

theorem assign_split (hv : v ≠ some x.label) (hse : s ≤ e) (hs : x.lo < s) (he : e < x.hi) :
    assign v s e (x :: l) =
      { x with hi := s - 1 } :: (emit v s e ++ { x with lo := e + 1 } :: l) := by
  rw [assign, if_neg hv, if_neg (by omega), if_neg (by omega), if_pos hs, if_pos he,
    List.singleton_append]

end Equations

/-! ### The label at a position -/

theorem labelAt_append (l m : List (Extent α)) (b : Int) :
    labelAt (l ++ m) b = (labelAt l b).or (labelAt m b) := by
  induction l with
  | nil => rfl
  | cons x l ih =>
    rw [List.cons_append, labelAt, labelAt, ih]
    split <;> rfl

theorem labelAt_emit (v : Option α) (s e b : Int) :
    labelAt (emit v s e) b = if s ≤ b ∧ b ≤ e then v else none := by
  cases v with
  | none =>
    rw [ite_self]
    rfl
  | some a => rfl

/-- A label is the label of an extent there. -/
theorem exists_of_labelAt {b : Int} {a : α} (h : labelAt l b = some a) :
    ∃ x ∈ l, x.Has b ∧ x.label = a := by
  induction l with
  | nil => cases h
  | cons x l ih =>
    rw [labelAt] at h
    split at h
    next hb => exact ⟨x, List.mem_cons_self, hb, Option.some.inj h⟩
    next =>
      obtain ⟨y, hy, hyb⟩ := ih h
      exact ⟨y, List.mem_cons_of_mem x hy, hyb⟩

/-- Below all extents there is no label. -/
theorem labelAt_of_lt {b : Int} (h : ∀ x ∈ l, b < x.lo) :
    labelAt l b = none := by
  induction l with
  | nil => rfl
  | cons x l ih =>
    have hx := h x List.mem_cons_self
    rw [labelAt, if_neg fun hb => by have := hb.1; omega]
    exact ih fun y hy => h y (List.mem_cons_of_mem x hy)

/-- In a canonical list the label of an extent is the one at each of its positions. -/
theorem labelAt_of_mem (hl : Canonical l) (hx : x ∈ l)
    {b : Int} (hb : x.Has b) : labelAt l b = some x.label := by
  induction l with
  | nil => exact absurd hx List.not_mem_nil
  | cons y l ih =>
    rw [labelAt]
    rcases List.mem_cons.mp hx with rfl | hx
    · rw [if_pos hb]
    · have hlt := (List.rel_of_pairwise_cons hl.sorted hx).1
      have hlo := hb.1
      rw [if_neg fun hy => by have := hy.2; omega]
      exact ih ⟨fun z hz => hl.nonempty z (List.mem_cons_of_mem y hz), hl.sorted.of_cons⟩ hx

theorem Canonical.of_cons (h : Canonical (x :: l)) :
    Canonical l :=
  ⟨fun y hy => h.nonempty y (List.mem_cons_of_mem x hy), h.sorted.of_cons⟩

theorem canonical_nil : Canonical ([] : List (Extent α)) :=
  ⟨fun _ h => absurd h List.not_mem_nil, List.Pairwise.nil⟩

theorem Canonical.cons (h : Canonical l) (hx : x.lo ≤ x.hi)
    (hb : ∀ y ∈ l, x.Before y) : Canonical (x :: l) := by
  refine ⟨fun y hy => ?_, List.pairwise_cons.mpr ⟨hb, h.sorted⟩⟩
  rcases List.mem_cons.mp hy with rfl | hy
  · exact hx
  · exact h.nonempty y hy

theorem Canonical.head_le (h : Canonical (x :: l)) :
    x.lo ≤ x.hi :=
  h.nonempty x List.mem_cons_self

theorem Canonical.head_before (h : Canonical (x :: l)) :
    ∀ y ∈ l, x.Before y :=
  fun _ hy => List.rel_of_pairwise_cons h.sorted hy

/-! ### What an assignment does -/

section Assign

variable {v : Option α} {s e : Int}

theorem mem_emit {y : Extent α} : y ∈ emit v s e ↔ v = some y.label ∧ y.lo = s ∧ y.hi = e := by
  cases v with
  | none => simp [emit]
  | some a =>
    cases y
    simp only [emit, Option.map_some, Option.toList_some, List.mem_singleton, Extent.mk.injEq,
      Option.some.injEq]
    constructor
    · rintro ⟨rfl, rfl, rfl⟩
      exact ⟨rfl, rfl, rfl⟩
    · rintro ⟨rfl, rfl, rfl⟩
      exact ⟨rfl, rfl, rfl⟩

/-- The range is put in front of extents above it. -/
theorem labelAt_emit_append (h : ∀ y ∈ l, e < y.lo) (b : Int) :
    labelAt (emit v s e ++ l) b = if s ≤ b ∧ b ≤ e then v else labelAt l b := by
  rw [labelAt_append, labelAt_emit]
  split
  next hb =>
    rw [labelAt_of_lt fun y hy => by have := h y hy; omega, Option.or_none]
  next => rfl

/-- The range in front of extents that it is before. -/
theorem Canonical.emit_append (hl : Canonical l) (hse : s ≤ e)
    (h : ∀ y ∈ l, e < y.lo ∧ (v = some y.label → e + 1 < y.lo)) :
    Canonical (emit v s e ++ l) := by
  cases v with
  | none => exact hl
  | some a =>
    apply hl.cons hse
    intro y hy
    exact ⟨(h y hy).1, fun ha => (h y hy).2 (congrArg some ha)⟩

variable [DecidableEq α]

/-- After the assignment the range has the new label, and every other position the old one. -/
theorem labelAt_assign (hl : Canonical l) (hse : s ≤ e) (b : Int) :
    labelAt (assign v s e l) b = if s ≤ b ∧ b ≤ e then v else labelAt l b := by
  induction l generalizing s e with
  | nil => exact labelAt_emit v s e b
  | cons x l ih =>
    have hx := hl.head_le
    have hafter (y : Extent α) (hy : y ∈ l) := (hl.head_before y hy).1
    have hskip (h : x.hi < s) : labelAt (x :: assign v s e l) b =
        if s ≤ b ∧ b ≤ e then v else labelAt (x :: l) b := by
      rw [labelAt, ih hl.of_cons hse, labelAt]
      split
      next hb => rw [if_neg fun h' => by have := hb.2; omega]
      next => rfl
    have hstop (h : e < x.lo) : labelAt (emit v s e ++ x :: l) b =
        if s ≤ b ∧ b ≤ e then v else labelAt (x :: l) b := by
      apply labelAt_emit_append
      intro y hy
      rcases List.mem_cons.mp hy with rfl | hy
      · exact h
      · have := hafter y hy
        omega
    rw [assign]
    split
    next hv =>
      split
      next h => exact hskip (by omega)
      next h1 =>
        split
        next h => exact hstop (by omega)
        next h2 =>
          -- the range and the extent touch, so together they are one range
          rw [ih hl.of_cons (by omega), labelAt]
          have hunion : (min s x.lo ≤ b ∧ b ≤ max e x.hi) ↔ (s ≤ b ∧ b ≤ e) ∨ x.Has b := by
            rw [Has]
            omega
          by_cases hb : s ≤ b ∧ b ≤ e
          · rw [if_pos (hunion.mpr (.inl hb)), if_pos hb]
          · rw [if_neg hb]
            by_cases hxb : x.Has b
            · rw [if_pos (hunion.mpr (.inr hxb)), if_pos hxb, hv]
            · rw [if_neg fun h => (hunion.mp h).elim hb hxb, if_neg hxb]
    next hv =>
      split
      next h => exact hskip h
      next h1 =>
        split
        next h => exact hstop h
        next h2 =>
          have hleft : labelAt (if x.lo < s then [{ x with hi := s - 1 }] else []) b =
              if x.lo ≤ b ∧ b < s then some x.label else none := by
            split
            next h =>
              show (if x.lo ≤ b ∧ b ≤ s - 1 then some x.label else none) = _
              have hiff : (x.lo ≤ b ∧ b ≤ s - 1) ↔ (x.lo ≤ b ∧ b < s) := by omega
              rw [if_congr hiff rfl rfl]
            next h =>
              rw [if_neg (by omega)]
              rfl
          have hright : labelAt (if e < x.hi then emit v s e ++ { x with lo := e + 1 } :: l
                else assign v s e l) b =
              if s ≤ b ∧ b ≤ e then v else if e < b ∧ b ≤ x.hi then some x.label
                else labelAt l b := by
            split
            next h =>
              rw [labelAt_emit_append, labelAt]
              · have hiff : (e + 1 ≤ b ∧ b ≤ x.hi) ↔ (e < b ∧ b ≤ x.hi) := by omega
                rw [← if_congr hiff rfl rfl]
                rfl
              · intro y hy
                rcases List.mem_cons.mp hy with rfl | hy
                · exact Int.lt_add_one_of_le (Int.le_refl e)
                · have := hafter y hy
                  omega
            next h =>
              rw [ih hl.of_cons hse]
              have hnot : ¬ (e < b ∧ b ≤ x.hi) := by omega
              rw [if_neg hnot]
          rw [labelAt_append, hleft, hright, labelAt]
          by_cases hb : s ≤ b ∧ b ≤ e
          · rw [if_neg (by omega), if_pos hb, if_pos hb, Option.none_or]
          · rw [if_neg hb, if_neg hb]
            by_cases hlow : x.lo ≤ b ∧ b < s
            · rw [if_pos hlow, if_pos (show x.Has b from ⟨hlow.1, by omega⟩), Option.some_or]
            · rw [if_neg hlow, Option.none_or]
              have hiff : (e < b ∧ b ≤ x.hi) ↔ x.Has b := by
                rw [Has]
                omega
              rw [if_congr hiff rfl rfl]

/-- What is before the range and before all extents stays before all of them. -/
theorem before_assign (hl : ∀ y ∈ l, x.Before y) (hs : x.hi < s)
    (hv : v = some x.label → x.hi + 1 < s) : ∀ y ∈ assign v s e l, x.Before y := by
  have hemit (y : Extent α) (hy : y ∈ emit v s e) : x.Before y := by
    obtain ⟨hlabel, hlo, -⟩ := mem_emit.mp hy
    rw [Before, hlo]
    exact ⟨hs, fun h => hv (by rw [hlabel, h])⟩
  induction l generalizing s e with
  | nil => exact hemit
  | cons z l ih =>
    have hz := hl z List.mem_cons_self
    have hl' (y : Extent α) (hy : y ∈ l) := hl y (List.mem_cons_of_mem z hy)
    have hskip : ∀ y ∈ z :: assign v s e l, x.Before y := by
      intro y hy
      rcases List.mem_cons.mp hy with rfl | hy
      · exact hz
      · exact ih hl' hs hv hemit y hy
    have hstop (m : List (Extent α)) (hm : ∀ y ∈ m, x.Before y) :
        ∀ y ∈ emit v s e ++ m, x.Before y := by
      intro y hy
      rcases List.mem_append.mp hy with hy | hy
      · exact hemit y hy
      · exact hm y hy
    rw [assign]
    split
    next hvz =>
      split
      next => exact hskip
      next =>
        split
        next => exact hstop _ hl
        next =>
          have hv' : v = some x.label → x.hi + 1 < min s z.lo := by
            intro h
            have hlabel : x.label = z.label := Option.some.inj (h.symm.trans hvz)
            exact Int.lt_min.mpr ⟨hv h, hz.2 hlabel⟩
          apply ih hl' (Int.lt_min.mpr ⟨hs, hz.1⟩) hv'
          intro y hy
          obtain ⟨hlabel, hlo, -⟩ := mem_emit.mp hy
          rw [Before, hlo]
          exact ⟨Int.lt_min.mpr ⟨hs, hz.1⟩, fun h => hv' (by rw [hlabel, h])⟩
    next =>
      split
      next => exact hskip
      next =>
        split
        next => exact hstop _ hl
        next h2 =>
          intro y hy
          rcases List.mem_append.mp hy with hy | hy
          · split at hy
            next =>
              rw [List.mem_singleton.mp hy]
              exact hz
            next => exact absurd hy List.not_mem_nil
          · split at hy
            next hhi =>
              refine hstop _ ?_ y hy
              intro y hy
              rcases List.mem_cons.mp hy with rfl | hy
              · refine ⟨?_, fun h => ?_⟩
                · have := hz.1
                  show x.hi < e + 1
                  omega
                · have := hz.2 h
                  show x.hi + 1 < e + 1
                  omega
              · exact hl' y hy
            next => exact ih hl' hs hv hemit y hy

/-- An assignment keeps the list canonical. -/
theorem Canonical.assign (hl : Canonical l) (hse : s ≤ e) : Canonical (assign v s e l) := by
  induction l generalizing s e with
  | nil =>
    have := canonical_nil.emit_append (v := v) hse fun y hy => absurd hy List.not_mem_nil
    rwa [List.append_nil] at this
  | cons x l ih =>
    have hx := hl.head_le
    have hafter := hl.head_before
    rw [Extent.assign]
    split
    next hv =>
      split
      next h =>
        apply (ih hl.of_cons hse).cons hx
        exact before_assign hafter (by omega) fun _ => by omega
      next =>
        split
        next h =>
          apply hl.emit_append hse
          intro y hy
          rcases List.mem_cons.mp hy with rfl | hy
          · omega
          · have := (hafter y hy).1
            omega
        next => exact ih hl.of_cons (by omega)
    next hv =>
      split
      next h =>
        apply (ih hl.of_cons hse).cons hx
        exact before_assign hafter h fun h' => absurd h' hv
      next h1 =>
        split
        next h =>
          apply hl.emit_append hse
          intro y hy
          rcases List.mem_cons.mp hy with rfl | hy
          · exact ⟨h, fun h' => absurd h' hv⟩
          · have := (hafter y hy).1
            omega
        next h2 =>
          -- the part above the range, with the range before it
          have hright : Canonical (if e < x.hi then emit v s e ++ { x with lo := e + 1 } :: l
              else Extent.assign v s e l) := by
            split
            next h =>
              have hcut : Canonical ({ x with lo := e + 1 } :: l) :=
                hl.of_cons.cons (by show e + 1 ≤ x.hi; omega) hafter
              apply hcut.emit_append hse
              intro y hy
              rcases List.mem_cons.mp hy with rfl | hy
              · exact ⟨Int.lt_add_one_of_le (Int.le_refl e), fun h' => absurd h' hv⟩
              · have := (hafter y hy).1
                omega
            next => exact ih hl.of_cons hse
          split
          next hlo =>
            apply hright.cons (by show x.lo ≤ s - 1; omega)
            have hbefore : ∀ y ∈ l, ({ x with hi := s - 1 } : Extent α).Before y := by
              intro y hy
              have hb := hafter y hy
              refine ⟨?_, fun h => ?_⟩
              · have := hb.1
                show s - 1 < y.lo
                omega
              · have := hb.2 h
                show s - 1 + 1 < y.lo
                omega
            split
            next hhi =>
              intro y hy
              rcases List.mem_append.mp hy with hy | hy
              · obtain ⟨hlabel, hlo', -⟩ := mem_emit.mp hy
                refine ⟨?_, fun h => absurd ?_ hv⟩
                · show s - 1 < y.lo
                  omega
                · rw [hlabel, ← h]
              · rcases List.mem_cons.mp hy with rfl | hy
                · refine ⟨?_, fun _ => ?_⟩
                  · show s - 1 < e + 1
                    omega
                  · show s - 1 + 1 < e + 1
                    omega
                · exact hbefore y hy
            next =>
              apply before_assign hbefore
              · show s - 1 < s
                omega
              · exact fun h => absurd h hv
          next => exact hright

end Assign

end Extent

end LinuxStm32.Base
