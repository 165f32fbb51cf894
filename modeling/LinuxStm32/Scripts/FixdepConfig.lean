import LinuxStm32.Base.Records
import LinuxStm32.Scripts.Fixdep
import Mathlib.Data.List.Nodup

/-!
# The configuration words that fixdep finds

`parse_config_file` looks at every fourth byte, from the second word of the file on, and finds
the start of a word from the phase in which it meets it. That covers every occurrence of
`CONFIG_` but one at offset 0. It passes a word on only at a character that ends it, so a word at
the end of the file is lost. Each name is printed once: the names found are kept in a buffer,
each between two newlines.
-/

namespace LinuxStm32.Scripts

open Base

/-! ### What is meant -/

def configPrefix : Bytes := asciiBytes "CONFIG_"
def moduleSuffix : Bytes := asciiBytes "_MODULE"

/-- The letters, digits and underscores behind `CONFIG_` at an offset. -/
def wordRun (b : Bytes) (o : Nat) : Bytes := (b.drop (o + 7)).takeWhile isWordChar

/-- A word without a trailing `_MODULE`. -/
def stripModule (word : Bytes) : Bytes :=
  if moduleSuffix <:+ word then word.take (word.length - 7) else word

/-- What a word contributes. -/
def wordName (word : Bytes) : Option Bytes :=
  if configPrefix <+: stripModule word then some ((stripModule word).drop 7) else none

/-- What a byte-by-byte scan finds at an offset. -/
def scanName (b : Bytes) (o : Nat) : Option Bytes :=
  if configPrefix <+: b.drop o then wordName (configPrefix ++ wordRun b o) else none

/-- The word at an offset is not seen: it starts the file, or it reaches its end. -/
def Missed (b : Bytes) (o : Nat) : Prop := o = 0 ∨ b.length ≤ o + 7 + (wordRun b o).length

section Run

variable (files : Bytes → Option Bytes) (deps : List Bytes)

/-- The file is opened in a run and is not empty. -/
def Opened (b : Bytes) : Prop := b ≠ [] ∧ ∃ dep ∈ deps, files dep = some b

/-- A run finds the words of the scan, and prints each name that is short enough once. -/
structure ScanComplete : Prop where
  complete : ∀ b, Opened files deps b → ∀ n, n ∈ configNames b ↔ ∃ o, scanName b o = some n
  printed : ∃ s, configRun files deps = some s ∧ ∀ n, n.length < pathMax →
    (∃ b, Opened files deps b ∧ ∃ o, scanName b o = some n) → s.printed.count n = 1

/-- A name at a place that is not seen is also at one that is, and no name that is seen is too
long. -/
structure FilesOk : Prop where
  seen : ∀ b, Opened files deps b → ∀ o n, scanName b o = some n → Missed b o →
    ∃ o', ¬ Missed b o' ∧ scanName b o' = some n
  short : ∀ b, Opened files deps b → ∀ o n, ¬ Missed b o → scanName b o = some n →
    n.length < pathMax

end Run

/-! ### One word -/

theorem mapped_eq {b : Bytes} {i n : Nat} (h : i + n ≤ b.length) :
    mapped b i n = (b.drop i).take n := by
  apply List.ext_getElem?
  intro j
  simp only [mapped, List.getElem?_map, List.getElem?_take, List.getElem?_drop]
  by_cases hj : j < n
  · rw [List.getElem?_range hj, if_pos hj, Option.map_some, List.getD_eq_getElem?_getD,
      List.getElem?_eq_getElem (by omega), Option.getD_some]
  · rw [if_neg hj, List.getElem?_eq_none (by simpa using hj), Option.map_none]

theorem configPrefix_length : configPrefix.length = 7 := by decide

theorem moduleSuffix_length : moduleSuffix.length = 7 := by decide

/-- The word at an occurrence is a part of the file. -/
theorem word_eq_take {b : Bytes} {o : Nat} (h : configPrefix <+: b.drop o) :
    configPrefix ++ wordRun b o = (b.drop o).take (7 + (wordRun b o).length) := by
  obtain ⟨r, hr⟩ := h
  have hrest : b.drop (o + 7) = r := by
    rw [← List.drop_drop, ← hr, ← configPrefix_length, List.drop_left]
  have hrun : wordRun b o = r.take (wordRun b o).length := by
    have hpre : wordRun b o <+: r := by
      rw [wordRun, hrest]
      exact List.takeWhile_prefix _
    exact List.prefix_iff_eq_take.mp hpre
  rw [← hr, ← configPrefix_length, List.take_length_add_append, ← hrun]

theorem wordRun_le {b : Bytes} {o : Nat} (h : o + 7 ≤ b.length) :
    o + 7 + (wordRun b o).length ≤ b.length := by
  have hpre : (wordRun b o).length ≤ (b.drop (o + 7)).length :=
    (List.takeWhile_prefix isWordChar).length_le
  rw [List.length_drop] at hpre
  omega

/-- The name of a word, by its length: the code computes with the end of the word. -/
theorem wordName_eq {r : Bytes} :
    wordName (configPrefix ++ r) =
      if moduleSuffix <:+ configPrefix ++ r then
        if r.length < 7 then none else some (r.take (r.length - 7))
      else some r := by
  have hlen : (configPrefix ++ r).length - 7 = r.length := by
    rw [List.length_append, configPrefix_length]
    omega
  unfold wordName stripModule
  split_ifs with hmod hpre hshort hshort hpre
  · -- less than `CONFIG_` is left
    have hle := hpre.length_le
    rw [hlen, List.length_take, configPrefix_length] at hle
    omega
  · rw [hlen]
    have htake : (configPrefix ++ r).take r.length = configPrefix ++ r.take (r.length - 7) := by
      rw [List.take_append, configPrefix_length, List.take_of_length_le (by
        rw [configPrefix_length]; omega)]
    rw [htake, ← configPrefix_length, List.drop_left]
  · rfl
  · exfalso
    apply hpre
    rw [hlen, List.take_append, configPrefix_length, List.take_of_length_le (by
      rw [configPrefix_length]; omega)]
    exact List.prefix_append _ _
  · rw [← configPrefix_length, List.drop_left]
  · exact absurd (List.prefix_append _ _) hpre

/-- The last seven bytes of a word are those before its end. -/
theorem moduleSuffix_iff {b : Bytes} {p : Nat} (h : configPrefix <+: b.drop p)
    (hend : p + 7 + (wordRun b p).length ≤ b.length) :
    moduleSuffix <:+ configPrefix ++ wordRun b p ↔
      mapped b (p + (wordRun b p).length) 7 = asciiBytes "_MODULE" := by
  have hlen : ((b.drop p).take (7 + (wordRun b p).length)).length = 7 + (wordRun b p).length := by
    rw [List.length_take, List.length_drop]
    omega
  rw [word_eq_take h, mapped_eq (by omega), List.suffix_iff_eq_drop, moduleSuffix_length, hlen,
    Nat.add_sub_cancel_left, List.drop_take, List.drop_drop, Nat.add_sub_cancel]
  exact eq_comm

/-- What stands behind `CONFIG_` up to a place in the word. -/
theorem mapped_word {b : Bytes} {p n : Nat} (hend : p + 7 + (wordRun b p).length ≤ b.length)
    (hn : n ≤ (wordRun b p).length) : mapped b (p + 7) n = (wordRun b p).take n := by
  have hrun : wordRun b p = (b.drop (p + 7)).take (wordRun b p).length :=
    List.prefix_iff_eq_take.mp (List.takeWhile_prefix _)
  have htake := congrArg (List.take n) hrun
  rw [List.take_take, Nat.min_eq_left hn] at htake
  rw [mapped_eq (by omega), htake]

/-- The word at `p` in terms of its run. -/
theorem configName_wordRun (b : Bytes) (p : Nat) : configName b p =
    if b.length < p + 7 then none
    else if mapped b p 7 ≠ asciiBytes "CONFIG_" then none
    else if b.length ≤ p + 7 + (wordRun b p).length then none
    else
      let q := if mapped b (p + (wordRun b p).length) 7 = asciiBytes "_MODULE"
        then p + (wordRun b p).length else p + 7 + (wordRun b p).length
      if q < p + 7 then none else some (mapped b (p + 7) (q - (p + 7))) := by
  have hback : p + 7 + (wordRun b p).length - 7 = p + (wordRun b p).length := by omega
  rw [← hback]
  rfl

/-- `parse_config_file` gets from a place what the scan does, unless the word reaches the end. -/
theorem configName_eq (b : Bytes) (p : Nat) :
    configName b p = if b.length ≤ p + 7 + (wordRun b p).length then none else scanName b p := by
  rw [configName_wordRun]
  by_cases hshort : b.length < p + 7
  · rw [if_pos hshort, if_pos (by omega)]
  have hpre : configPrefix <+: b.drop p ↔ mapped b p 7 = asciiBytes "CONFIG_" := by
    rw [List.prefix_iff_eq_take, configPrefix_length, mapped_eq (by omega)]
    exact eq_comm
  have hend := wordRun_le (b := b) (o := p) (by omega)
  rw [if_neg hshort]
  by_cases hocc : configPrefix <+: b.drop p
  · rw [if_neg (by rw [not_not]; exact hpre.mp hocc)]
    by_cases hmiss : b.length ≤ p + 7 + (wordRun b p).length
    · rw [if_pos hmiss, if_pos hmiss]
    rw [if_neg hmiss, if_neg hmiss, scanName, if_pos hocc, wordName_eq]
    dsimp only
    by_cases hm : moduleSuffix <:+ configPrefix ++ wordRun b p
    · rw [if_pos hm, if_pos ((moduleSuffix_iff hocc hend).mp hm)]
      by_cases hlt : (wordRun b p).length < 7
      · rw [if_pos hlt, if_pos (by omega)]
      · have hcut : p + (wordRun b p).length - (p + 7) = (wordRun b p).length - 7 := by omega
        rw [if_neg hlt, if_neg (by omega), hcut, mapped_word hend (by omega)]
    · have hcut : p + 7 + (wordRun b p).length - (p + 7) = (wordRun b p).length := by omega
      rw [if_neg hm, if_neg fun h => hm ((moduleSuffix_iff hocc hend).mpr h), if_neg (by omega),
        hcut, mapped_word hend (Nat.le_refl _), List.take_length]
  · rw [if_pos fun h => hocc (hpre.mpr h), scanName, if_neg hocc]
    split_ifs <;> rfl

/-! ### The phases -/

/-- A start that the scan guesses is at most three bytes back. -/
theorem configStart_bounds {b : Bytes} {m p : Nat} (h : configStart b m = some p) :
    m ≤ p + 3 ∧ p ≤ m := by
  unfold configStart at h
  split_ifs at h <;> simp only [Option.some.injEq] at h <;> omega

/-- An occurrence is met in the phase that its offset gives. -/
theorem configStart_of_occurrence {b : Bytes} {o : Nat} (h : configPrefix <+: b.drop o) :
    configStart b (4 * ((o + 3) / 4)) = some o := by
  have hlen := h.length_le
  rw [configPrefix_length, List.length_drop] at hlen
  have htake : (b.drop o).take 7 = configPrefix := by
    rw [← configPrefix_length]
    exact (List.prefix_iff_eq_take.mp h).symm
  have hword : ∀ k ≤ 3, mapped b (o + k) 4 = (configPrefix.drop k).take 4 := by
    intro k hk
    rw [mapped_eq (by omega), ← htake, List.drop_take, List.take_take, List.drop_drop,
      Nat.min_eq_left (by omega)]
  obtain ⟨k, hk, hm⟩ : ∃ k ≤ 3, 4 * ((o + 3) / 4) = o + k :=
    ⟨4 * ((o + 3) / 4) - o, by omega, by omega⟩
  have hb := hword k hk
  rw [hm]
  unfold configStart
  rw [hb]
  obtain rfl | rfl | rfl | rfl : k = 0 ∨ k = 1 ∨ k = 2 ∨ k = 3 := by omega
  · rw [if_pos (by decide)]
    rfl
  · rw [if_neg (by decide), if_pos (by decide)]
    rfl
  · rw [if_neg (by decide), if_neg (by decide), if_pos (by decide)]
    rfl
  · rw [if_neg (by decide), if_neg (by decide), if_neg (by decide), if_pos (by decide)]
    rfl

theorem scanName_occurrence {b n : Bytes} {o : Nat} (h : scanName b o = some n) :
    configPrefix <+: b.drop o := by
  unfold scanName at h
  split_ifs at h with hocc
  exact hocc

/-- The names passed on are those of the places that are seen. -/
theorem mem_configNames {b n : Bytes} :
    n ∈ configNames b ↔ ∃ o, ¬ Missed b o ∧ scanName b o = some n := by
  simp only [configNames, List.mem_filterMap, List.mem_range'_1, Option.bind_eq_some_iff]
  constructor
  · rintro ⟨k, ⟨hk, -⟩, o, hstart, hname⟩
    have hbounds := configStart_bounds hstart
    rw [configName_eq] at hname
    split_ifs at hname with hmiss
    refine ⟨o, ?_, hname⟩
    rintro (hzero | hend)
    · omega
    · exact hmiss hend
  · rintro ⟨o, hseen, hname⟩
    have hocc := scanName_occurrence hname
    have hlen := hocc.length_le
    rw [configPrefix_length, List.length_drop] at hlen
    have hpos : o ≠ 0 := fun h => hseen (.inl h)
    refine ⟨(o + 3) / 4, ⟨by omega, by omega⟩, o, configStart_of_occurrence hocc, ?_⟩
    rw [configName_eq, if_neg fun h => hseen (.inr h), hname]

/-! ### The buffer -/

/-- The search in the buffer finds the names that were added. -/
theorem isDefinedConfig_iff {names : List Bytes} (hnames : ∀ x ∈ names, newline ∉ x) {name : Bytes}
    (hname : newline ∉ name) :
    isDefinedConfig (records newline names) name = true ↔ name ∈ names := by
  rw [← infix_records_iff hnames hname, infix_iff_exists_index]
  simp only [isDefinedConfig, List.any_eq_true, List.mem_range'_1, Bool.and_eq_true, beq_iff_eq]
  constructor
  · rintro ⟨i, ⟨hi, hlt⟩, ⟨hbefore, hbehind⟩, htext⟩
    exact ⟨i, hi, by omega, hbefore, hbehind, htext⟩
  · rintro ⟨i, hi, hlt, hbefore, hbehind, htext⟩
    exact ⟨i, ⟨hi, by omega⟩, ⟨hbefore, hbehind⟩, htext⟩

/-- The buffer holds the names printed, which are distinct and short enough. -/
structure ConfigState.Inv (s : ConfigState) : Prop where
  buffer : s.strConfig = records newline s.printed
  nodup : s.printed.Nodup
  word : ∀ x ∈ s.printed, newline ∉ x
  short : ∀ x ∈ s.printed, x.length < pathMax

theorem clearConfig_inv : clearConfig.Inv :=
  ⟨rfl, .nil, by simp [clearConfig], by simp [clearConfig]⟩

/-- One name: it is known, or it is too long, or it is printed. -/
theorem useConfig_cases {s : ConfigState} (h : s.Inv) {name : Bytes} (hname : newline ∉ name) :
    name ∈ s.printed ∧ useConfig s name = some s ∨
      name ∉ s.printed ∧ pathMax ≤ name.length ∧ useConfig s name = none ∨
      name.length < pathMax ∧ ∃ s', useConfig s name = some s' ∧ s'.Inv ∧
        s'.printed = s.printed ++ [name] := by
  have hdef := isDefinedConfig_iff h.word hname
  rw [← h.buffer] at hdef
  unfold useConfig
  by_cases hmem : name ∈ s.printed
  · exact .inl ⟨hmem, if_pos (hdef.mpr hmem)⟩
  · rw [if_neg fun hd => hmem (hdef.mp hd)]
    by_cases hlong : pathMax ≤ name.length
    · exact .inr (.inl ⟨hmem, hlong, if_pos hlong⟩)
    · refine .inr (.inr ⟨by omega, _, if_neg hlong, ⟨?_, ?_, ?_, ?_⟩, rfl⟩)
      · rw [records_concat, h.buffer]
      · rw [List.nodup_append]
        refine ⟨h.nodup, List.nodup_singleton _, ?_⟩
        rintro x hx y hy rfl
        exact hmem (List.mem_singleton.mp hy ▸ hx)
      · exact List.forall_mem_append.mpr ⟨h.word, by simpa using hname⟩
      · intro x hx
        rcases List.mem_append.mp hx with hx | hx
        · exact h.short x hx
        · rw [List.mem_singleton.mp hx]
          omega

/-- All names of a run: the run ends if none is too long, and has printed each once. -/
theorem foldlM_useConfig {names : List Bytes} (hnames : ∀ x ∈ names, newline ∉ x)
    {s : ConfigState} (h : s.Inv) :
    ((∀ x ∈ names, x.length < pathMax) → ∃ s', names.foldlM useConfig s = some s' ∧ s'.Inv ∧
      ∀ x, x ∈ s'.printed ↔ x ∈ s.printed ∨ x ∈ names) ∧
    ((names.foldlM useConfig s).isSome → ∀ x ∈ names, x.length < pathMax) := by
  induction names generalizing s with
  | nil => exact ⟨fun _ => ⟨s, rfl, h, by simp⟩, fun _ x hx => absurd hx List.not_mem_nil⟩
  | cons name names ih =>
    obtain ⟨hname, hrest⟩ := List.forall_mem_cons.mp hnames
    rw [List.foldlM_cons]
    rcases useConfig_cases h hname with ⟨hmem, hs⟩ | ⟨-, hlong, hs⟩ | ⟨hlt, s', hs, hinv, hprinted⟩
    · obtain ⟨hsome, hshort⟩ := ih hrest h
      rw [hs]
      constructor
      · intro hall
        obtain ⟨s', hs', hinv, hiff⟩ := hsome (List.forall_mem_cons.mp hall).2
        refine ⟨s', hs', hinv, fun x => ?_⟩
        rw [hiff, List.mem_cons]
        constructor
        · rintro (hx | hx)
          · exact .inl hx
          · exact .inr (.inr hx)
        · rintro (hx | rfl | hx)
          · exact .inl hx
          · exact .inl hmem
          · exact .inr hx
      · intro hend
        exact List.forall_mem_cons.mpr ⟨h.short name hmem, hshort hend⟩
    · rw [hs]
      constructor
      · intro hall
        have hlt := (List.forall_mem_cons.mp hall).1
        omega
      · intro hend
        exact absurd hend (by simp)
    · obtain ⟨hsome, hshort⟩ := ih hrest hinv
      rw [hs]
      constructor
      · intro hall
        obtain ⟨s'', hs'', hinv', hiff⟩ := hsome (List.forall_mem_cons.mp hall).2
        refine ⟨s'', hs'', hinv', fun x => ?_⟩
        rw [hiff, hprinted, List.mem_append, List.mem_singleton, List.mem_cons, or_assoc]
      · intro hend
        exact List.forall_mem_cons.mpr ⟨hlt, hshort hend⟩

/-! ### Whole runs -/

/-- A name is made of characters of words. -/
theorem newline_not_mem_scanName {b n : Bytes} {o : Nat} (h : scanName b o = some n) :
    newline ∉ n := by
  have hrun : newline ∉ wordRun b o := fun hm => absurd (List.mem_takeWhile_imp hm) (by decide)
  unfold scanName at h
  split_ifs at h
  rw [wordName_eq] at h
  split_ifs at h
  · obtain rfl := Option.some.inj h
    exact fun hm => hrun (List.mem_of_mem_take hm)
  · obtain rfl := Option.some.inj h
    exact hrun

/-- All names that a run passes on. -/
def runNames (files : Bytes → Option Bytes) (deps : List Bytes) : List Bytes :=
  (deps.filterMap files).flatMap configNames

/-- A run passes these names to `use_config`. -/
theorem configRun_eq (files : Bytes → Option Bytes) (deps : List Bytes) :
    configRun files deps = (runNames files deps).foldlM useConfig clearConfig := by
  unfold configRun runNames
  generalize clearConfig = s
  induction deps generalizing s with
  | nil => rfl
  | cons dep deps ih =>
    rw [List.foldlM_cons]
    cases hf : files dep with
    | none =>
      rw [List.filterMap_cons_none hf]
      exact ih s
    | some b =>
      rw [List.filterMap_cons_some hf, List.flatMap_cons, List.foldlM_append]
      have hfile : doConfigFile s (some b) = (configNames b).foldlM useConfig s := by
        cases b <;> rfl
      rw [hfile]
      exact congrArg _ (funext ih)

theorem mem_runNames {files : Bytes → Option Bytes} {deps : List Bytes} {n : Bytes} :
    n ∈ runNames files deps ↔ ∃ b, Opened files deps b ∧ n ∈ configNames b := by
  simp only [runNames, List.mem_flatMap, List.mem_filterMap, Opened]
  constructor
  · rintro ⟨b, ⟨dep, hdep, hb⟩, hn⟩
    refine ⟨b, ⟨?_, dep, hdep, hb⟩, hn⟩
    rintro rfl
    exact absurd hn List.not_mem_nil
  · rintro ⟨b, ⟨-, dep, hdep, hb⟩, hn⟩
    exact ⟨b, ⟨dep, hdep, hb⟩, hn⟩

/-- For all files of every run: the names passed on are those of the byte-by-byte scan and each is
printed once if and only if no name is only at a place that is not seen, and none that is seen is
too long for the buffer. -/
theorem config_scan_complete_iff (files : Bytes → Option Bytes) (deps : List Bytes) :
    ScanComplete files deps ↔ FilesOk files deps := by
  have hwords : ∀ x ∈ runNames files deps, newline ∉ x := by
    intro x hx
    obtain ⟨b, -, hn⟩ := mem_runNames.mp hx
    obtain ⟨o, -, hname⟩ := mem_configNames.mp hn
    exact newline_not_mem_scanName hname
  obtain ⟨hsome, hshort⟩ := foldlM_useConfig hwords clearConfig_inv
  rw [← configRun_eq] at hsome hshort
  constructor
  · rintro ⟨hcomplete, s, hs, -⟩
    constructor
    · intro b hb o n hname hmiss
      exact mem_configNames.mp ((hcomplete b hb n).mpr ⟨o, hname⟩)
    · intro b hb o n hseen hname
      apply hshort (by rw [hs]; rfl)
      exact mem_runNames.mpr ⟨b, hb, mem_configNames.mpr ⟨o, hseen, hname⟩⟩
  · intro hok
    have hcomplete : ∀ b, Opened files deps b →
        ∀ n, n ∈ configNames b ↔ ∃ o, scanName b o = some n := by
      intro b hb n
      rw [mem_configNames]
      constructor
      · rintro ⟨o, -, hname⟩
        exact ⟨o, hname⟩
      · rintro ⟨o, hname⟩
        by_cases hmiss : Missed b o
        · exact hok.seen b hb o n hname hmiss
        · exact ⟨o, hmiss, hname⟩
    have hall : ∀ x ∈ runNames files deps, x.length < pathMax := by
      intro x hx
      obtain ⟨b, hb, hn⟩ := mem_runNames.mp hx
      obtain ⟨o, hseen, hname⟩ := mem_configNames.mp hn
      exact hok.short b hb o x hseen hname
    obtain ⟨s, hs, hinv, hiff⟩ := hsome hall
    refine ⟨hcomplete, s, hs, ?_⟩
    rintro n - ⟨b, hb, hname⟩
    apply List.count_eq_one_of_mem hinv.nodup
    exact (hiff n).mpr (.inr (mem_runNames.mpr ⟨b, hb, (hcomplete b hb n).mpr hname⟩))

/-- A run that opens one file with this content. -/
def oneFile (b : Bytes) : Bytes → Option Bytes := fun _ => some b

/-- A word in the middle of a file is found, without `_MODULE`. -/
example : configNames (asciiBytes "x CONFIG_A_MODULE\n") = [asciiBytes "A"] := by decide

/-- A word at the start of a file is not found, and neither is one at its end. -/
theorem config_scan_misses_ends :
    configNames (asciiBytes "CONFIG_A\n") = [] ∧
      scanName (asciiBytes "CONFIG_A\n") 0 = some (asciiBytes "A") ∧
      ¬ ScanComplete (oneFile (asciiBytes "CONFIG_A\n")) [asciiBytes "a.h"] ∧
      configNames (asciiBytes "x CONFIG_B") = [] ∧
      scanName (asciiBytes "x CONFIG_B") 2 = some (asciiBytes "B") ∧
      ¬ ScanComplete (oneFile (asciiBytes "x CONFIG_B")) [asciiBytes "b.h"] := by
  have hmiss : ∀ b dep n o, b ≠ [] → configNames b = [] → scanName b o = some n →
      ¬ ScanComplete (oneFile b) [dep] := by
    intro b dep n o hne hnone hname hcomplete
    have hopened : Opened (oneFile b) [dep] b := ⟨hne, dep, List.mem_singleton_self dep, rfl⟩
    have hmem := (hcomplete.complete b hopened n).mpr ⟨o, hname⟩
    rw [hnone] at hmem
    exact absurd hmem List.not_mem_nil
  have hstart : configNames (asciiBytes "CONFIG_A\n") = [] := by decide
  have hend : configNames (asciiBytes "x CONFIG_B") = [] := by decide
  have hnameA : scanName (asciiBytes "CONFIG_A\n") 0 = some (asciiBytes "A") := by decide
  have hnameB : scanName (asciiBytes "x CONFIG_B") 2 = some (asciiBytes "B") := by decide
  exact ⟨hstart, hnameA, hmiss _ _ _ _ (by decide) hstart hnameA, hend, hnameB,
    hmiss _ _ _ _ (by decide) hend hnameB⟩

end LinuxStm32.Scripts
