import Mathlib.Data.Nat.Bitwise
import LinuxStm32.Base.Word

/-!
# Naturally aligned blocks

Block number `i` of order `o` is the set of all `q` with `q / 2 ^ o = i`: `2 ^ o` numbers from
`i * 2 ^ o` on. Two such blocks are disjoint or one contains the other. For a set `F` and a
bound `M` on the order, `Max F M o i` says that the block lies in `F` and no larger one of an
order below `M` that contains it does. Every member of `F` is in exactly one maximal block.

The maximal blocks of a set change in a simple way when a maximal block is taken out of the set,
and when a block is put in whose neighbour of the same size is not in the set; a buddy allocator
uses only these two steps.
-/

namespace LinuxStm32.Base.Dyadic

/-- Every member of block number `i` of order `o` is in `F`. -/
def Full (F : Nat → Prop) (o i : Nat) : Prop := ∀ q, q / 2 ^ o = i → F q

/-- A block in `F` that no larger block in `F` of order below `M` contains. -/
structure Max (F : Nat → Prop) (M o i : Nat) : Prop where
  lt : o < M
  full : Full F o i
  top : o + 1 < M → ¬ Full F (o + 1) (i / 2)

variable {F G : Nat → Prop} {M o o' i i' q : Nat}

/-! ### Nesting -/

/-- The number of the block of order `o` around `q` gives that of any larger order. -/
theorem div_pow_of_le (h : o ≤ o') (q : Nat) : q / 2 ^ o' = q / 2 ^ o / 2 ^ (o' - o) := by
  rw [Nat.div_div_eq_div_mul, ← Nat.pow_add, Nat.add_sub_cancel' h]

/-- The block one order up. -/
theorem div_pow_succ (q o : Nat) : q / 2 ^ (o + 1) = q / 2 ^ o / 2 := by
  rw [Nat.pow_succ, Nat.div_div_eq_div_mul]

/-- Of two blocks with a common member the larger contains the smaller. -/
theorem div_eq_of_common (h : o ≤ o') (hq : q / 2 ^ o = i) (hq' : q / 2 ^ o' = i') {r : Nat}
    (hr : r / 2 ^ o = i) : r / 2 ^ o' = i' := by
  rw [div_pow_of_le h, hr, ← hq, ← div_pow_of_le h, hq']

theorem mul_pow_div (i o : Nat) : i * 2 ^ o / 2 ^ o = i :=
  Nat.mul_div_cancel _ (Nat.two_pow_pos o)

theorem Full.mono (h : ∀ q, F q → G q) (hf : Full F o i) : Full G o i :=
  fun q hq => h q (hf q hq)

/-- A block inside a full one is full. -/
theorem Full.of_le (hf : Full F o' (q / 2 ^ o')) (h : o ≤ o') : Full F o (q / 2 ^ o) :=
  fun _ hr => hf _ (div_eq_of_common h rfl rfl hr)

/-- The same, with the smaller block given by a member of both. -/
theorem Full.of_common (hf : Full F o' i') (h : o ≤ o') (hq : q / 2 ^ o = i)
    (hq' : q / 2 ^ o' = i') : Full F o i := by
  subst hq hq'
  exact hf.of_le h

/-! ### Maximal blocks -/

/-- Every full block of order below `M` is in a maximal one. -/
theorem exists_max_above (h : o < M) (hf : Full F o (q / 2 ^ o)) :
    ∃ o', o ≤ o' ∧ Max F M o' (q / 2 ^ o') := by
  -- go up from `o` as long as the next block is full
  induction hn : M - o generalizing o with
  | zero => omega
  | succ n ih =>
    by_cases hup : o + 1 < M ∧ Full F (o + 1) (q / 2 ^ (o + 1))
    · obtain ⟨o', hle, hmax⟩ := ih hup.1 hup.2 (by omega)
      exact ⟨o', by omega, hmax⟩
    · refine ⟨o, Nat.le_refl o, h, hf, fun hlt hfull => hup ⟨hlt, ?_⟩⟩
      rwa [div_pow_succ]

/-- Every member of the set is in a maximal block. -/
theorem exists_max (hM : 0 < M) (hq : F q) : ∃ o, Max F M o (q / 2 ^ o) := by
  have hfull : Full F 0 (q / 2 ^ 0) := fun r hr => by
    rw [Nat.pow_zero, Nat.div_one, Nat.div_one] at hr
    rwa [hr]
  obtain ⟨o, _, hmax⟩ := exists_max_above hM hfull
  exact ⟨o, hmax⟩

private theorem Max.le_of_common (h : Max F M o (q / 2 ^ o)) (h' : Max F M o' (q / 2 ^ o')) :
    o' ≤ o := by
  by_contra hlt
  refine h.top (Nat.lt_of_le_of_lt (Nat.lt_of_not_le hlt) h'.lt) ?_
  rw [← div_pow_succ]
  exact h'.full.of_le (Nat.lt_of_not_le hlt)

/-- Maximal blocks with a common member are the same. -/
theorem Max.eq_of_common (h : Max F M o i) (h' : Max F M o' i') (hq : q / 2 ^ o = i)
    (hq' : q / 2 ^ o' = i') : o' = o ∧ i' = i := by
  subst hq hq'
  have ho : o' = o := Nat.le_antisymm (h.le_of_common h') (h'.le_of_common h)
  subst ho
  exact ⟨rfl, rfl⟩

/-! ### Taking a block out, putting a block in -/

/-- Without a maximal block the other maximal blocks are as before. -/
theorem Max.remove_iff (h : Max F M o i) :
    Max (fun q => F q ∧ q / 2 ^ o ≠ i) M o' i' ↔ Max F M o' i' ∧ ¬ (o' = o ∧ i' = i) := by
  constructor
  · intro h'
    refine ⟨⟨h'.lt, h'.full.mono fun _ hq => hq.1, fun hlt hfull => ?_⟩, ?_⟩
    · obtain ⟨q, hq, hin⟩ : ∃ q, q / 2 ^ (o' + 1) = i' / 2 ∧ q / 2 ^ o = i := by
        by_contra hno
        exact h'.top hlt fun q hq => ⟨hfull q hq, fun hin => hno ⟨q, hq, hin⟩⟩
      rcases Nat.lt_or_ge o' o with hle | hle
      · -- the block taken out contains the one above
        have hmem : i' * 2 ^ o' / 2 ^ (o' + 1) = i' / 2 := by rw [div_pow_succ, mul_pow_div]
        exact (h'.full _ (mul_pow_div i' o')).2 (div_eq_of_common hle hq hin hmem)
      · refine h.top (by omega) (hfull.of_common (q := q) (by omega) ?_ hq)
        rw [div_pow_succ, hin]
    · rintro ⟨rfl, rfl⟩
      exact (h'.full _ (mul_pow_div i' o')).2 (mul_pow_div i' o')
  · rintro ⟨h', hne⟩
    refine ⟨h'.lt, fun q hq => ⟨h'.full q hq, fun hin => hne (h.eq_of_common h' hin hq)⟩, ?_⟩
    exact fun hlt hfull => h'.top hlt (hfull.mono fun _ hq => hq.1)

/-- With one more block, whose neighbour is not in the set, the others are as before. -/
theorem max_insert_iff (ho : o < M) (hout : ∀ q, q / 2 ^ o = i → ¬ F q)
    (hnext : o + 1 < M → ∃ q, q / 2 ^ (o + 1) = i / 2 ∧ q / 2 ^ o ≠ i ∧ ¬ F q) :
    Max (fun q => F q ∨ q / 2 ^ o = i) M o' i' ↔ Max F M o' i' ∨ o' = o ∧ i' = i := by
  have hnew : Max (fun q => F q ∨ q / 2 ^ o = i) M o i := by
    refine ⟨ho, fun q hq => .inr hq, fun hlt hfull => ?_⟩
    obtain ⟨q, hq, hne, hnot⟩ := hnext hlt
    exact (hfull q hq).elim hnot hne
  constructor
  · intro h'
    by_cases hcom : ∃ q, q / 2 ^ o' = i' ∧ q / 2 ^ o = i
    · obtain ⟨q, hq', hq⟩ := hcom
      exact .inr (hnew.eq_of_common h' hq hq')
    · refine .inl ⟨h'.lt, fun q hq => ?_, fun hlt hfull => ?_⟩
      · exact (h'.full q hq).resolve_right fun hin => hcom ⟨q, hq, hin⟩
      · exact h'.top hlt (hfull.mono fun _ hq => .inl hq)
  · rintro (h' | ⟨rfl, rfl⟩)
    · refine ⟨h'.lt, h'.full.mono fun _ hq => .inl hq, fun hlt hfull => ?_⟩
      obtain ⟨q, hq, hnot⟩ : ∃ q, q / 2 ^ (o' + 1) = i' / 2 ∧ ¬ F q := by
        by_contra hno
        exact h'.top hlt fun q hq => by_contra fun hnot => hno ⟨q, hq, hnot⟩
      have hin := (hfull q hq).resolve_left hnot
      rcases Nat.lt_or_ge o' o with hle | hle
      · -- the new block contains the old one, which is in the set
        have hmem : i' * 2 ^ o' / 2 ^ (o' + 1) = i' / 2 := by rw [div_pow_succ, mul_pow_div]
        exact hout _ (div_eq_of_common hle hq hin hmem) (h'.full _ (mul_pow_div i' o'))
      · refine hnew.top (by omega) (hfull.of_common (q := q) (by omega) ?_ hq)
        rw [div_pow_succ, hin]
    · exact hnew

/-- A full neighbour of a block outside the set is maximal. -/
theorem Full.max_of_next (hf : Full F o i) (ho : o < M) (hq : q / 2 ^ (o + 1) = i / 2)
    (hnot : ¬ F q) : Max F M o i :=
  ⟨ho, hf, fun _ hfull => hnot (hfull q hq)⟩

/-! ### Blocks by their first member -/

/-- The `2 ^ o` numbers from `p` on are a naturally aligned block in `F`. -/
def IsBlock (F : Nat → Prop) (p o : Nat) : Prop :=
  p % 2 ^ o = 0 ∧ ∀ q, p ≤ q → q < p + 2 ^ o → F q

/-- A block in `F` of order below `M` that lies in no other one. -/
def IsMaximal (F : Nat → Prop) (M p o : Nat) : Prop :=
  o < M ∧ IsBlock F p o ∧ ∀ p' o', o' < M → IsBlock F p' o' → p' ≤ p → p + 2 ^ o ≤ p' + 2 ^ o' →
    p' = p ∧ o' = o

variable {p : Nat}

/-- The members of an aligned block. -/
theorem div_eq_iff_of_aligned (h : p % 2 ^ o = 0) :
    q / 2 ^ o = p / 2 ^ o ↔ p ≤ q ∧ q < p + 2 ^ o := by
  have hp : 2 ^ o * (p / 2 ^ o) = p := Nat.mul_div_cancel' (Nat.dvd_of_mod_eq_zero h)
  rw [Nat.div_eq_iff (Nat.two_pow_pos o), Nat.mul_comm (p / 2 ^ o), hp]
  have := Nat.two_pow_pos o
  omega

theorem isBlock_iff : IsBlock F p o ↔ p % 2 ^ o = 0 ∧ Full F o (p / 2 ^ o) := by
  refine and_congr_right fun h => ⟨fun hf q hq => ?_, fun hf q h1 h2 => ?_⟩
  · obtain ⟨h1, h2⟩ := (div_eq_iff_of_aligned h).mp hq
    exact hf q h1 h2
  · exact hf q ((div_eq_iff_of_aligned h).mpr ⟨h1, h2⟩)

/-- Inclusion of blocks, by their first members. -/
private theorem le_of_nested (hle : o ≤ o') {p' : Nat} (h' : p' % 2 ^ o' = 0)
    (hp : p / 2 ^ o' = p' / 2 ^ o') (h : p % 2 ^ o = 0) :
    p' ≤ p ∧ p + 2 ^ o ≤ p' + 2 ^ o' := by
  have hpos := Nat.two_pow_pos o
  have hlast : (p + 2 ^ o - 1) / 2 ^ o = p / 2 ^ o :=
    (div_eq_iff_of_aligned h).mpr (by omega)
  have h1 := (div_eq_iff_of_aligned h').mp hp
  have h2 := (div_eq_iff_of_aligned h').mp (div_eq_of_common hle rfl hp hlast)
  omega

/-- The two notions of a maximal block agree. -/
theorem isMaximal_iff : IsMaximal F M p o ↔ p % 2 ^ o = 0 ∧ Max F M o (p / 2 ^ o) := by
  constructor
  · rintro ⟨ho, hb, hmax⟩
    obtain ⟨hal, hfull⟩ := isBlock_iff.mp hb
    refine ⟨hal, ho, hfull, fun hlt hup => ?_⟩
    -- the block one order up would contain this one
    have hal' : p / 2 ^ (o + 1) * 2 ^ (o + 1) % 2 ^ (o + 1) = 0 := Nat.mul_mod_left _ _
    have hin := le_of_nested (Nat.le_succ o) hal' (mul_pow_div (p / 2 ^ (o + 1)) (o + 1)).symm hal
    have hb' : IsBlock F (p / 2 ^ (o + 1) * 2 ^ (o + 1)) (o + 1) := by
      refine isBlock_iff.mpr ⟨hal', ?_⟩
      rw [mul_pow_div, div_pow_succ]
      exact hup
    exact absurd (hmax _ _ hlt hb' hin.1 hin.2).2 (Nat.succ_ne_self o)
  · rintro ⟨hal, hmax⟩
    refine ⟨hmax.lt, isBlock_iff.mpr ⟨hal, hmax.full⟩, fun p' o' ho' hb' h1 h2 => ?_⟩
    obtain ⟨hal', hfull'⟩ := isBlock_iff.mp hb'
    have hpos := Nat.two_pow_pos o
    have hp : p / 2 ^ o' = p' / 2 ^ o' := (div_eq_iff_of_aligned hal').mpr (by omega)
    rcases Nat.lt_or_ge o o' with hlt | hge
    · refine absurd ?_ (hmax.top (Nat.lt_of_le_of_lt hlt ho'))
      rw [← div_pow_succ]
      rw [← hp] at hfull'
      exact hfull'.of_le hlt
    · have hle : o ≤ o' := (Nat.pow_le_pow_iff_right (by decide)).mp (by omega : 2 ^ o ≤ 2 ^ o')
      obtain rfl : o' = o := Nat.le_antisymm hge hle
      exact ⟨by omega, rfl⟩

/-! ### Neighbours -/

/-- The number of the other half of the block one order up. -/
def sibling (i : Nat) : Nat := if i % 2 = 0 then i + 1 else i - 1

theorem sibling_ne (i : Nat) : sibling i ≠ i := by
  unfold sibling
  split <;> omega

theorem sibling_div_two (i : Nat) : sibling i / 2 = i / 2 := by
  unfold sibling
  split <;> omega

/-- The two halves of a block. -/
theorem div_two_eq_iff {j : Nat} : j / 2 = i / 2 ↔ j = i ∨ j = sibling i := by
  unfold sibling
  split <;> omega

/-- Flipping bit `o` leads to the sibling. -/
theorem mul_pow_xor (i o : Nat) : i * 2 ^ o ^^^ 2 ^ o = sibling i * 2 ^ o := by
  have hone : i ^^^ 1 = sibling i := by
    rcases Nat.mod_two_eq_zero_or_one i with h | h
    · rw [Nat.xor_one_of_even (Nat.even_iff.mpr h), sibling, if_pos h]
    · rw [Nat.xor_one_of_odd (Nat.odd_iff.mpr h), sibling, if_neg (by omega)]
  have hpow : 2 ^ o = 1 <<< o := by rw [Nat.shiftLeft_eq, Nat.one_mul]
  rw [← Nat.shiftLeft_eq, ← Nat.shiftLeft_eq, hpow, ← Nat.shiftLeft_xor_distrib, hone]

/-- Clearing bit `o` leads to the block one order up. -/
theorem mul_pow_andNot (i o : Nat) : andNot (i * 2 ^ o) (2 ^ o) = i / 2 * 2 ^ (o + 1) := by
  have hand : i * 2 ^ o &&& 2 ^ o = i % 2 * 2 ^ o := by
    have hpow : 2 ^ o = 1 <<< o := by rw [Nat.shiftLeft_eq, Nat.one_mul]
    rw [← Nat.shiftLeft_eq, ← Nat.shiftLeft_eq, hpow, ← Nat.shiftLeft_and_distrib,
      Nat.and_one_is_mod]
  rw [andNot, hand, Nat.pow_succ, Nat.mul_comm (2 ^ o) 2, ← Nat.mul_assoc]
  rcases Nat.mod_two_eq_zero_or_one i with h | h
  · rw [h, Nat.zero_mul, Nat.xor_zero, Nat.div_mul_cancel (Nat.dvd_of_mod_eq_zero h)]
  · rw [h, Nat.one_mul, mul_pow_xor, sibling, if_neg (by omega)]
    congr 1
    omega

end LinuxStm32.Base.Dyadic
