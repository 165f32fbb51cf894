import LinuxStm32.Base.Tokens
import LinuxStm32.Scripts.Fixdep

/-!
# The dependencies that fixdep finds

What `parse_dep_file` returns is determined by the tokens behind the first colon, and these do
not change when every newline becomes a carriage return and a newline. The function treats the
file as a string in two places, so zeros matter, and it copies what stands before the colon into
a buffer of `PATH_MAX` bytes without a test.
-/

namespace LinuxStm32.Scripts

open Base

/-! ### What is meant -/

/-- Every newline becomes a carriage return and a newline. -/
def toCrlf (f : Bytes) : Bytes :=
  f.flatMap fun c => if c = newline then [carriageReturn, newline] else [c]

/-- What stands before the first colon. -/
def beforeColon (f : Bytes) : Bytes := f.takeWhile (· ≠ colon)

/-- What stands behind the first colon. -/
def afterColon (f : Bytes) : Bytes := (f.dropWhile (· ≠ colon)).tail

/-- The suffixes of files that are not followed. -/
def excludedSuffixes : List Bytes :=
  [asciiBytes "include/generated/autoconf.h", asciiBytes "arch/um/include/uml-config.h",
    asciiBytes ".ver"]

/-- The token has none of the suffixes. -/
def isFollowed (t : Bytes) : Bool := excludedSuffixes.all fun sub => !sub.isSuffixOf t

/-- The dependencies of a file: the maximal runs behind the first colon that are followed. -/
def dependencies (f : Bytes) : List Bytes := (runs isDelim (afterColon f)).filter isFollowed

/-- The file ends in a line break. -/
def EndsInLineBreak (f : Bytes) : Prop := f.getLast? = some newline

/-- `parse_dep_file` finds the same list with both line endings, and it is the list meant. -/
def LineEndingsIrrelevant (fuel : Nat) (f : Bytes) : Prop :=
  ∃ deps, parseDepFile fuel f = .ok deps ∧ parseDepFile fuel (toCrlf f) = .ok deps ∧
    (EndsInLineBreak f → deps = dependencies f)

/-- No zero stands before the colon, what stands there fits the buffer with either line ending,
and, in a file that ends in a line break, a token with a zero is followed neither as a whole nor
up to the zero. -/
structure DepFileOk (f : Bytes) : Prop where
  noZero : nul ∉ beforeColon f
  fits : (toCrlf (beforeColon f)).length < pathMax
  tokens : EndsInLineBreak f → ∀ t ∈ runs isDelim (afterColon f), nul ∈ t →
    isFollowed t = false ∧ (cString t = [] ∨ isFollowed (cString t) = false)

/-! ### Tokens -/

/-- The trimming at the end of the file. -/
def trimEnd (t : Bytes) : Bytes := t.rdropWhile fun c => !isalnum c

/-- The tokens of the loop. -/
def depTokens (rest : Bytes) : List Bytes := tokensWith trimEnd isDelim rest

theorem strrcmp_eq_false_iff {s sub : Bytes} : strrcmp s sub = false ↔ sub <:+ s := by
  unfold strrcmp
  constructor
  · intro h
    split_ifs at h with hlt
    rw [decide_eq_false_iff_not, not_not] at h
    exact h ▸ List.drop_suffix _ _
  · rintro ⟨r, rfl⟩
    rw [if_neg (by simp), decide_eq_false_iff_not, not_not]
    simp

theorem isExcluded_eq (s : Bytes) : isExcluded s = !isFollowed s := by
  have hsub : ∀ sub : Bytes, strrcmp s sub = !sub.isSuffixOf s := by
    intro sub
    rw [Bool.eq_iff_iff, ← not_iff_not]
    simp [strrcmp_eq_false_iff, List.isSuffixOf_iff_suffix]
  simp [isExcluded, isFollowed, excludedSuffixes, hsub, Bool.or_assoc]

/-- A token without zeros that fits is copied as it is; otherwise it ends at the first zero. -/
theorem copyToken_eq {t : Bytes} (ht : ∀ x ∈ t, isDelim x = false) (hlen : t.length < pathMax) :
    copyToken t = cString t := by
  unfold copyToken
  rw [if_neg (by omega)]
  dsimp only
  rw [List.take_length]
  apply List.rdropWhile_eq_self_iff.mpr
  intro hne hlast
  have hmem : (cString t).getLast hne ∈ t :=
    (List.takeWhile_prefix _).subset (List.getLast_mem hne)
  have hdelim := ht _ hmem
  simp only [isDelim, Bool.or_eq_false_iff, Bool.or_eq_true] at hdelim hlast
  simp_all

theorem depName_eq {t : Bytes} (ht : ∀ x ∈ t, isDelim x = false) (hlen : t.length < pathMax) :
    depName t = if cString t = [] ∨ isFollowed (cString t) = false then none
      else some (cString t) := by
  unfold depName
  dsimp only
  rw [copyToken_eq ht hlen, isExcluded_eq]
  by_cases h : cString t = []
  · simp [h]
  · cases isFollowed (cString t) <;> simp [h]

theorem depTokens_of_not_alnum {t : Bytes} (ht : ∀ x ∈ t, isDelim x = false)
    (hal : ∀ x ∈ t, isalnum x = false) : depTokens t = [] := by
  have htrim : trimEnd t = [] := List.rdropWhile_eq_nil_iff.mpr (by simpa using hal)
  rw [depTokens, tokensWith_last ht, if_pos htrim]

/-! ### The loop -/

/-- What the loop has found and what it will find. -/
def depTotal (v : Bytes × List Bytes) : List Bytes := v.2 ++ (depTokens v.1).filterMap depName

/-- The token at the end of the file, and what the loop looks at after it. -/
theorem depTokens_end {m : Bytes} (hm : ∀ x ∈ m, isDelim x = false) :
    (trimEnd m = [] → depTokens m = [] ∧ depTokens m.tail = []) ∧
      (trimEnd m ≠ [] → depTokens m = [trimEnd m] ∧
        depTokens (m.drop ((trimEnd m).length + 1)) = []) := by
  have hdrop : ∀ k, ∀ x ∈ m.drop k, isDelim x = false :=
    fun k x hx => hm x (List.mem_of_mem_drop hx)
  constructor
  · intro hnil
    have hal : ∀ x ∈ m, isalnum x = false := by
      simpa [trimEnd, List.rdropWhile_eq_nil_iff] using hnil
    refine ⟨depTokens_of_not_alnum hm hal, ?_⟩
    rw [← List.drop_one]
    exact depTokens_of_not_alnum (hdrop 1) fun x hx => hal x (List.mem_of_mem_drop hx)
  · intro hne
    refine ⟨by rw [depTokens, tokensWith_last hm, if_neg hne], ?_⟩
    apply depTokens_of_not_alnum (hdrop _)
    intro x hx
    -- what is dropped by the trimming is not alphanumeric
    have hsplit : trimEnd m ++ m.rtakeWhile (fun c => !isalnum c) = m :=
      List.rdropWhile_append_rtakeWhile
    have hmem : x ∈ m.rtakeWhile fun c => !isalnum c := by
      have hcut := congrArg (List.drop ((trimEnd m).length + 1)) hsplit
      rw [← List.drop_drop, List.drop_left] at hcut
      rw [← hcut] at hx
      exact List.mem_of_mem_drop hx
    simpa using List.mem_rtakeWhile_imp hmem

/-- One round ends with what was to be found, or goes on with less. -/
theorem depRound_total (v : Bytes × List Bytes) :
    Outcome (fun v' => depTotal v' = depTotal v ∧ v'.1.length < v.1.length)
      (fun deps => deps = depTotal v) (depRound v) := by
  obtain ⟨rest, out⟩ := v
  unfold depRound
  dsimp only
  generalize hm : rest.dropWhile isDelim = m
  have hle : m.length ≤ rest.length := hm ▸ (List.dropWhile_suffix _).length_le
  have hskip : depTokens rest = depTokens m := by
    rw [← List.takeWhile_append_dropWhile (p := isDelim) (l := rest), hm]
    exact tokensWith_seps (fun d hd => List.mem_takeWhile_imp hd) m
  have hhead : ∀ c r, m = c :: r → isDelim c = false := by
    intro c r hcr
    have hne : rest.dropWhile isDelim ≠ [] := by
      rw [hm, hcr]
      simp
    have hnot := List.head_dropWhile_not isDelim hne
    simpa [hm, hcr] using hnot
  by_cases hnil : m = []
  · rw [if_pos hnil]
    show out = depTotal (rest, out)
    have hnone : depTokens [] = [] := rfl
    simp only [depTotal, hskip, hnil, hnone, List.filterMap_nil, List.append_nil]
  · have hpos : 0 < m.length := List.length_pos_iff.mpr hnil
    rw [if_neg hnil]
    rcases token_cases isDelim m with h | ⟨c, r, hcr, hc⟩ | ⟨t, c, r, rfl, hne, ht, hc⟩
    · have htoken : depToken m = trimEnd m := by
        have htake : m.takeWhile (fun c => !isDelim c) = m :=
          List.takeWhile_eq_self_iff.mpr (by simpa using h)
        simp [depToken, htake, trimEnd]
      rw [htoken]
      split_ifs with hempty
      · obtain ⟨h₁, h₂⟩ := (depTokens_end h).1 hempty
        refine ⟨by simp [depTotal, hskip, h₁, h₂], ?_⟩
        simp only [List.length_tail]
        omega
      · obtain ⟨h₁, h₂⟩ := (depTokens_end h).2 hempty
        refine ⟨?_, ?_⟩
        · simp only [depTotal, hskip, h₁, h₂]
          cases hname : depName (trimEnd m) <;> simp [hname]
        · simp only [List.length_drop]
          omega
    · exact absurd hc (by simp [hhead c r hcr])
    · have htoken : depToken (t ++ c :: r) = t := by
        have htake : (t ++ c :: r).takeWhile (fun c => !isDelim c) = t := by
          rw [List.takeWhile_append_of_pos (by simpa using ht), List.takeWhile_cons_of_neg
            (by simp [hc]), List.append_nil]
        rw [depToken, htake, if_neg (by simp)]
      have hrest : (t ++ c :: r).drop (t.length + 1) = r := by
        rw [List.drop_append, List.drop_eq_nil_of_le (by omega)]
        simp
      rw [htoken, if_neg hne, hrest]
      refine ⟨?_, ?_⟩
      · have htokens : depTokens (t ++ c :: r) = t :: depTokens r := tokensWith_token ht hne hc r
        simp only [depTotal, hskip, htokens]
        cases hname : depName t <;> simp [hname]
      · simp only [List.length_append, List.length_cons] at hle
        dsimp only
        omega

/-- The loop finds the dependencies of its tokens. -/
theorem depLoop_eq {fuel : Nat} {rest : Bytes} (hfuel : rest.length < fuel) :
    loop depRound fuel (rest, []) = some ((depTokens rest).filterMap depName) := by
  have hrun : ∃ deps, loop depRound fuel (rest, []) = some deps ∧
      deps = depTotal (rest, []) := by
    apply loop_ranked (fun n v => v.1.length = n ∧ depTotal v = depTotal (rest, [])) _ ⟨rfl, rfl⟩
      hfuel
    rintro n v ⟨rfl, htotal⟩
    have h := depRound_total v
    cases hround : depRound v with
    | none => rw [hround] at h; exact h
    | some o =>
      rw [hround] at h
      cases o with
      | inl v' => exact ⟨_, h.2, rfl, h.1.trans htotal⟩
      | inr deps => exact Eq.trans h htotal
  obtain ⟨deps, hdeps, rfl⟩ := hrun
  exact hdeps

/-! ### Line endings -/

theorem toCrlf_append (f g : Bytes) : toCrlf (f ++ g) = toCrlf f ++ toCrlf g :=
  List.flatMap_append

theorem toCrlf_cons (c : UInt8) (f : Bytes) : toCrlf (c :: f) =
    (if c = newline then [carriageReturn, newline] else [c]) ++ toCrlf f :=
  List.flatMap_cons

theorem toCrlf_of_no_delim {t : Bytes} (ht : ∀ x ∈ t, isDelim x = false) : toCrlf t = t := by
  induction t with
  | nil => rfl
  | cons c t ih =>
    obtain ⟨hc, ht⟩ := List.forall_mem_cons.mp ht
    have hne : c ≠ newline := by
      rintro rfl
      exact absurd hc (by decide)
    rw [toCrlf_cons, if_neg hne, ih ht, List.singleton_append]

theorem mem_toCrlf {c : UInt8} {f : Bytes} (hc : isDelim c = false) : c ∈ toCrlf f ↔ c ∈ f := by
  have hcr : c ≠ carriageReturn := by rintro rfl; exact absurd hc (by decide)
  have hnl : c ≠ newline := by rintro rfl; exact absurd hc (by decide)
  induction f with
  | nil => rfl
  | cons d f ih =>
    simp only [toCrlf_cons, List.mem_append, List.mem_cons, ih]
    split_ifs with hd
    · subst hd
      simp [hcr, hnl]
    · simp

theorem length_le_toCrlf (f : Bytes) : f.length ≤ (toCrlf f).length := by
  induction f with
  | nil => exact Nat.le_refl _
  | cons c f ih =>
    rw [toCrlf_cons, List.length_append, List.length_cons]
    split_ifs <;> simp <;> omega

/-- The tokens do not depend on the line endings. -/
theorem tokensWith_toCrlf (trim : Bytes → Bytes) (l : Bytes) :
    tokensWith trim isDelim (toCrlf l) = tokensWith trim isDelim l := by
  have hnl : isDelim newline = true := by decide
  have hcr : isDelim carriageReturn = true := by decide
  induction l using token_induction isDelim with
  | last t ht => rw [toCrlf_of_no_delim ht]
  | sepStep c l hc ih =>
    rw [toCrlf_cons, tokensWith_sep hc]
    split_ifs
    · rw [List.cons_append, tokensWith_sep hcr, List.singleton_append, tokensWith_sep hnl, ih]
    · rw [List.singleton_append, tokensWith_sep hc, ih]
  | token t c l hne ht hc ih =>
    rw [toCrlf_append, toCrlf_of_no_delim ht, toCrlf_cons, tokensWith_token ht hne hc]
    split_ifs
    · rw [List.cons_append, tokensWith_token ht hne hcr, List.singleton_append,
        tokensWith_sep hnl, ih]
    · rw [List.singleton_append, tokensWith_token ht hne hc, ih]

/-! ### The target -/

section Target

variable {target rest : Bytes}

theorem beforeColon_eq (h : colon ∉ target) : beforeColon (target ++ colon :: rest) = target := by
  have hall : ∀ x ∈ target, decide (x ≠ colon) = true := by
    intro x hx
    exact decide_eq_true fun he => h (he ▸ hx)
  rw [beforeColon, List.takeWhile_append_of_pos hall, List.takeWhile_cons_of_neg (by simp),
    List.append_nil]

theorem afterColon_eq (h : colon ∉ target) : afterColon (target ++ colon :: rest) = rest := by
  have hall : ∀ x ∈ target, decide (x ≠ colon) = true := by
    intro x hx
    exact decide_eq_true fun he => h (he ▸ hx)
  rw [afterColon, List.dropWhile_append_of_pos hall, List.dropWhile_cons_of_neg (by simp),
    List.tail_cons]

/-- A zero before the colon hides it. -/
theorem parseDepFile_of_zero (fuel : Nat) (h : colon ∉ target) (hz : nul ∈ target) :
    parseDepFile fuel (target ++ colon :: rest) = .error .parseError := by
  obtain ⟨a, b, rfl, ha⟩ := List.eq_append_cons_of_mem hz
  have hall : ∀ x ∈ a, (decide (x ≠ nul) && decide (x ≠ colon)) = true := by
    intro x hx
    rw [Bool.and_eq_true, decide_eq_true_eq, decide_eq_true_eq]
    exact ⟨fun he => ha (he ▸ hx), fun he => h (he ▸ List.mem_append_left _ hx)⟩
  have htake :
      ((a ++ nul :: b) ++ colon :: rest).takeWhile (fun c => c ≠ nul && c ≠ colon) = a := by
    rw [List.append_assoc, List.takeWhile_append_of_pos hall, List.cons_append,
      List.takeWhile_cons_of_neg (by simp), List.append_nil]
  have hdrop : ((a ++ nul :: b) ++ colon :: rest).drop a.length = nul :: (b ++ colon :: rest) := by
    simp
  unfold parseDepFile
  dsimp only
  rw [htake, hdrop]
  rfl

/-- Without one, the text before the colon has to fit; then the tokens behind it are found. -/
theorem parseDepFile_eq {fuel : Nat} (h : colon ∉ target) (hz : nul ∉ target)
    (hfuel : rest.length < fuel) :
    parseDepFile fuel (target ++ colon :: rest) =
      if pathMax ≤ target.length then .error .overflow
      else .ok ((depTokens rest).filterMap depName) := by
  have hall : ∀ x ∈ target, (decide (x ≠ nul) && decide (x ≠ colon)) = true := by
    intro x hx
    rw [Bool.and_eq_true, decide_eq_true_eq, decide_eq_true_eq]
    exact ⟨fun he => hz (he ▸ hx), fun he => h (he ▸ hx)⟩
  have htake : (target ++ colon :: rest).takeWhile (fun c => c ≠ nul && c ≠ colon) = target := by
    rw [List.takeWhile_append_of_pos hall, List.takeWhile_cons_of_neg (by simp), List.append_nil]
  unfold parseDepFile
  dsimp only
  rw [htake, List.drop_left]
  dsimp only
  rw [if_neg (by simp), depLoop_eq hfuel]

end Target

/-! ### The whole -/

/-- Two selections that agree where `P` does not hold, the first of which selects nothing where it
does. -/
theorem filterMap_eq_iff {α β : Type} {a b : α → Option β} {P : α → Prop} [DecidablePred P]
    {l : List α} (hsame : ∀ t ∈ l, ¬ P t → a t = b t) (hnone : ∀ t ∈ l, P t → a t = none) :
    l.filterMap a = l.filterMap b ↔ ∀ t ∈ l, P t → b t = none := by
  have hlen : ∀ k : List α, (∀ t ∈ k, ¬ P t → a t = b t) → (∀ t ∈ k, P t → a t = none) →
      (k.filterMap a).length ≤ (k.filterMap b).length := by
    intro k hs hn
    induction k with
    | nil => exact Nat.le_refl _
    | cons t k ih =>
      have ih := ih (fun u hu => hs u (List.mem_cons_of_mem _ hu))
        fun u hu => hn u (List.mem_cons_of_mem _ hu)
      by_cases hP : P t
      · rw [List.filterMap_cons_none (hn t List.mem_cons_self hP)]
        cases hb : b t with
        | none => rwa [List.filterMap_cons_none hb]
        | some s =>
          rw [List.filterMap_cons_some hb, List.length_cons]
          omega
      · have hab := hs t List.mem_cons_self hP
        cases hb : b t with
        | none => rwa [List.filterMap_cons_none hb, List.filterMap_cons_none (hab.trans hb)]
        | some s =>
          rw [List.filterMap_cons_some hb, List.filterMap_cons_some (hab.trans hb)]
          simpa using ih
  induction l with
  | nil => simp
  | cons t l ih =>
    have hs : ∀ u ∈ l, ¬ P u → a u = b u := fun u hu => hsame u (List.mem_cons_of_mem _ hu)
    have hn : ∀ u ∈ l, P u → a u = none := fun u hu => hnone u (List.mem_cons_of_mem _ hu)
    have hrest : l.filterMap a = l.filterMap b ↔ ∀ u ∈ l, P u → b u = none := ih hs hn
    rw [List.forall_mem_cons, ← hrest]
    by_cases hP : P t
    · rw [List.filterMap_cons_none (hnone t List.mem_cons_self hP)]
      cases hb : b t with
      | none => simp [List.filterMap_cons_none hb]
      | some s =>
        -- one more is selected, so the lists differ
        refine ⟨fun heq => ?_, fun h => absurd (h.1 hP) (by simp)⟩
        have hl := congrArg List.length heq
        rw [List.filterMap_cons_some hb, List.length_cons] at hl
        have := hlen l hs hn
        omega
    · have hab := hsame t List.mem_cons_self hP
      cases hb : b t with
      | none => simp [List.filterMap_cons_none hb, List.filterMap_cons_none (hab.trans hb)]
      | some s =>
        simp [List.filterMap_cons_some hb, List.filterMap_cons_some (hab.trans hb), hP]

theorem cString_eq_self {t : Bytes} (h : nul ∉ t) : cString t = t :=
  List.takeWhile_eq_self_iff.mpr fun x hx => by simpa using fun he : x = nul => h (he ▸ hx)

theorem nul_not_mem_cString (t : Bytes) : nul ∉ cString t := fun h => by
  simpa using List.mem_takeWhile_imp h

/-- When the tokens found are the followed ones. -/
theorem filterMap_depName_eq_iff {l : List Bytes}
    (hl : ∀ t ∈ l, t ≠ [] ∧ ∀ x ∈ t, isDelim x = false)
    (hshort : ∀ t ∈ l, t.length < pathMax) :
    l.filterMap depName = l.filter isFollowed ↔ ∀ t ∈ l, nul ∈ t →
      isFollowed t = false ∧ (cString t = [] ∨ isFollowed (cString t) = false) := by
  have hname : ∀ t ∈ l, depName t = if cString t = [] ∨ isFollowed (cString t) = false then none
      else some (cString t) := fun t ht => depName_eq (hl t ht).2 (hshort t ht)
  have hfilter : l.filter isFollowed =
      l.filterMap fun t => if isFollowed t = true then some t else none := by
    rw [← List.filterMap_eq_filter]
    rfl
  have hsame : ∀ t ∈ l, ¬ nul ∈ t → (if isFollowed t = true then some t else none) = depName t := by
    intro t ht hz
    rw [hname t ht, cString_eq_self hz]
    cases isFollowed t <;> simp [(hl t ht).1]
  have hdep : ∀ t ∈ l, (depName t = none ↔ cString t = [] ∨ isFollowed (cString t) = false) := by
    intro t ht
    rw [hname t ht]
    split_ifs with h <;> simp [h]
  constructor
  · intro heq
    -- what is found has no zero, so no token with one is meant
    have hout : ∀ t ∈ l, nul ∈ t → isFollowed t = false := by
      intro t ht hz
      by_contra hf
      have hmem : t ∈ l.filterMap depName :=
        heq ▸ List.mem_filter.mpr ⟨ht, by simpa using hf⟩
      obtain ⟨u, hu, hut⟩ := List.mem_filterMap.mp hmem
      rw [hname u hu] at hut
      split_ifs at hut
      exact nul_not_mem_cString u (Option.some.inj hut ▸ hz)
    intro t ht hz
    refine ⟨hout t ht hz, (hdep t ht).mp ?_⟩
    have hiff := filterMap_eq_iff (P := fun t => nul ∈ t) hsame fun u hu hzu =>
      by rw [if_neg (by simp [hout u hu hzu])]
    exact hiff.mp (hfilter ▸ heq.symm) t ht hz
  · intro h
    have hiff := filterMap_eq_iff (P := fun t => nul ∈ t) hsame fun u hu hzu =>
      by rw [if_neg (by simp [(h u hu hzu).1])]
    rw [hfilter]
    exact (hiff.mpr fun t ht hz => (hdep t ht).mpr (h t ht hz).2).symm

/-- For every dependency file with a colon whose tokens are shorter than `PATH_MAX`, the line
endings are irrelevant and the list found is the list meant if and only if no zero stands before
the colon, what stands there fits the buffer, and tokens with a zero are not followed. -/
theorem line_endings_irrelevant_iff (f : Bytes) (hcolon : colon ∈ f)
    (hshort : ∀ t ∈ runs isDelim (afterColon f), t.length < pathMax) (fuel : Nat)
    (hfuel : (toCrlf f).length < fuel) : LineEndingsIrrelevant fuel f ↔ DepFileOk f := by
  obtain ⟨target, rest, rfl, hc⟩ := List.eq_append_cons_of_mem hcolon
  have hbefore := @beforeColon_eq target rest hc
  have hafter := @afterColon_eq target rest hc
  rw [hafter] at hshort
  have hcrlf : toCrlf (target ++ colon :: rest) = toCrlf target ++ colon :: toCrlf rest := by
    rw [toCrlf_append, toCrlf_cons, if_neg (by decide), List.singleton_append]
  have hc' : colon ∉ toCrlf target := fun h => hc ((mem_toCrlf (by decide)).mp h)
  have hlen := length_le_toCrlf target
  have hlen' := length_le_toCrlf rest
  rw [hcrlf, List.length_append, List.length_cons] at hfuel
  by_cases hz : nul ∈ target
  · constructor
    · rintro ⟨deps, hdeps, -⟩
      rw [parseDepFile_of_zero fuel hc hz] at hdeps
      exact absurd hdeps (by simp)
    · intro h
      exact absurd hz (hbefore ▸ h.noZero)
  have hz' : nul ∉ toCrlf target := fun h => hz ((mem_toCrlf (by decide)).mp h)
  have hrun := @parseDepFile_eq target rest fuel hc hz (by omega)
  have hrun' := @parseDepFile_eq (toCrlf target) (toCrlf rest) fuel hc' hz' (by omega)
  rw [← hcrlf] at hrun'
  have htokens : depTokens (toCrlf rest) = depTokens rest := tokensWith_toCrlf trimEnd rest
  by_cases hfit : pathMax ≤ (toCrlf target).length
  · constructor
    · rintro ⟨deps, -, hdeps, -⟩
      rw [hrun', if_pos hfit] at hdeps
      exact absurd hdeps (by simp)
    · intro h
      have hlt := h.fits
      rw [hbefore] at hlt
      omega
  rw [if_neg (by omega)] at hrun
  rw [if_neg hfit, htokens] at hrun'
  have hmeant : LineEndingsIrrelevant fuel (target ++ colon :: rest) ↔
      (EndsInLineBreak (target ++ colon :: rest) →
        (depTokens rest).filterMap depName = (runs isDelim rest).filter isFollowed) := by
    constructor
    · rintro ⟨deps, hdeps, -, hends⟩ hlast
      rw [hrun, Except.ok.injEq] at hdeps
      rw [hdeps, hends hlast, dependencies, hafter]
    · intro h
      refine ⟨_, hrun, hrun', fun hlast => ?_⟩
      rw [h hlast, dependencies, hafter]
  have hends : EndsInLineBreak (target ++ colon :: rest) → depTokens rest = runs isDelim rest := by
    intro hlast
    apply tokensWith_of_getLast (c := newline) (List.rdropWhile_nil _) _ (by decide)
    cases rest with
    | nil =>
      rw [EndsInLineBreak, List.getLast?_concat] at hlast
      exact absurd hlast (by decide)
    | cons x rest =>
      rwa [EndsInLineBreak, List.getLast?_append_of_ne_nil _ (by simp),
        List.getLast?_cons_cons] at hlast
  rw [hmeant]
  constructor
  · intro h
    refine ⟨by rw [hbefore]; exact hz, by rw [hbefore]; omega, fun hlast => ?_⟩
    have heq := h hlast
    rw [hends hlast] at heq
    rw [hafter]
    exact (filterMap_depName_eq_iff (fun t ht => mem_runs ht) hshort).mp heq
  · intro h hlast
    have htok := h.tokens hlast
    rw [hafter] at htok
    rw [hends hlast]
    exact (filterMap_depName_eq_iff (fun t ht => mem_runs ht) hshort).mpr htok

/-- `a.o: b.h \` and `c.ver` on the next line. -/
def smallDepFile : Bytes :=
  [97, 46, 111, 58, 32, 98, 46, 104, 32, 92, 10, 32, 99, 46, 118, 101, 114, 10]

/-- Only `b.h` is followed, with either line ending. -/
theorem line_endings_irrelevant_small :
    LineEndingsIrrelevant 30 smallDepFile ∧ dependencies smallDepFile = [[98, 46, 104]] := by
  have hok : DepFileOk smallDepFile := by
    refine ⟨by decide, by decide, fun _ t ht hz => ?_⟩
    revert t
    decide
  exact ⟨(line_endings_irrelevant_iff smallDepFile (by decide) (by decide) 30 (by decide)).mpr hok,
    by decide⟩

/-- A target behind 4096 spaces. -/
def paddedDepFile : Bytes := List.replicate 4096 space ++ colon :: [32, 98, 10]

/-- What stands before the colon overflows the buffer, although every token is short. And a token
with a zero is cut there. -/
theorem padded_target_overflows :
    (∀ fuel, 3 < fuel → parseDepFile fuel paddedDepFile = .error .overflow ∧
      ¬ LineEndingsIrrelevant fuel paddedDepFile) ∧
    colon ∈ paddedDepFile ∧ dependencies paddedDepFile = [[98]] ∧
    parseDepFile 9 [97, 58, 98, 0, 99, 10] = .ok [[98]] ∧
    dependencies [97, 58, 98, 0, 99, 10] = [[98, 0, 99]] := by
  have hc : colon ∉ List.replicate 4096 space := by
    rw [List.mem_replicate]
    decide
  have hz : nul ∉ List.replicate 4096 space := by
    rw [List.mem_replicate]
    decide
  refine ⟨fun fuel hfuel => ?_, List.mem_append_right _ List.mem_cons_self,
    ?_, by decide, by decide⟩
  · have hrun : parseDepFile fuel paddedDepFile = .error .overflow := by
      rw [paddedDepFile, parseDepFile_eq hc hz hfuel, List.length_replicate, if_pos (by decide)]
    refine ⟨hrun, ?_⟩
    rintro ⟨deps, hdeps, -⟩
    rw [hrun] at hdeps
    exact absurd hdeps (by simp)
  · rw [dependencies, paddedDepFile, afterColon_eq hc]
    decide

end LinuxStm32.Scripts
