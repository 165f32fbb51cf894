import LinuxStm32.Fs.BinfmtFlat
import Mathlib.Algebra.Order.Ring.Int
import Mathlib.Logic.Function.Basic

/-!
# The strings of `execve`

`copy_strings` (`fs/exec.c` 389–467) without MMU (271–286, 312–321), and its calls in `do_execve`
(1371–1382). The model of the flat loader starts from the packed strings; here the pages are shown
to hold them. A string is given by its bytes before the `NUL`. `copy_from_user` is `memcpy` on this
port, and `strnlen_user` is in assembly and taken by its contract.
-/

namespace LinuxStm32.Fs

/-- `E2BIG`. -/
def e2big : Int := 7

/-- `EFAULT`. -/
def efault : Int := 14

/-- `MAX_ARG_STRLEN`. -/
def maxArgStrlen : Nat := 4096 * 32

/-- `page` of `struct linux_binprm`. -/
abbrev ArgPages : Type := Nat → Option (Nat → UInt8)

/-- `struct linux_binprm`. -/
structure Bprm where
  p : Nat
  page : ArgPages

/-- `get_arg_page`, for writing; `alloc k` tells if `alloc_page` finds a page for `page[k]`. -/
def getArgPage (alloc : Nat → Bool) (page : ArgPages) (pos : Nat) : Option ArgPages :=
  if (page (pos / 4096)).isSome then some page
  else if alloc (pos / 4096) then some (Function.update page (pos / 4096) (some fun _ => 0))
  else none

/-- `copy_from_user` of `n` bytes to an offset in a page. -/
def ArgPages.copy (page : ArgPages) (k offset n : Nat) (str : List UInt8) : ArgPages :=
  Function.update page k <| (page k).map fun bytes i =>
    if offset ≤ i ∧ i < offset + n then str.getD (i - offset) 0 else bytes i

/-- The inner loop: what is left of a string are its first `len` bytes, which end at `pos`. The page
`kpos` is mapped. -/
def copyString (alloc : Nat → Bool) (str : List UInt8) (page : ArgPages) (kpos : Option Nat)
    (pos len : Nat) : Except Int (ArgPages × Option Nat) :=
  if len = 0 then .ok (page, kpos)
  else
    let offset := if pos % 4096 = 0 then 4096 else pos % 4096
    let bytesToCopy := if len < offset then len else offset
    let pos := pos - bytesToCopy
    match if kpos = some (pos / 4096) then some page else getArgPage alloc page pos with
    | none => .error (-e2big)
    | some page =>
      let len' := len - bytesToCopy
      let page := page.copy (pos / 4096) (offset - bytesToCopy) bytesToCopy (str.drop len')
      copyString alloc str page (some (pos / 4096)) pos len'
termination_by len
decreasing_by
  split <;> split <;> omega

/-- The outer loop, from the last string on; `none` cannot be read. -/
def copyStringsLoop (alloc : Nat → Bool) :
    List (Option (List UInt8)) → Bprm → Option Nat → Except Int Bprm
  | [], bprm, _ => .ok bprm
  | none :: _, _, _ => .error (-efault)
  | some str :: rest, bprm, kpos =>
    -- `strnlen_user` counts the `NUL`
    let len := min (str.length + 1) (maxArgStrlen + 1)
    if bprm.p < len then .error (-e2big)
    else
      match copyString alloc (str ++ [0]) bprm.page kpos bprm.p len with
      | .error err => .error err
      | .ok (page, kpos) => copyStringsLoop alloc rest ⟨bprm.p - len, page⟩ kpos

/-- `copy_strings`. -/
def copyStrings (alloc : Nat → Bool) (argv : List (Option (List UInt8))) (bprm : Bprm) :
    Except Int Bprm :=
  copyStringsLoop alloc argv.reverse bprm none

/-- The calls in `do_execve`, after `__bprm_mm_init`. -/
def execStrings (alloc : Nat → Bool) (filename : List UInt8)
    (envp argv : List (Option (List UInt8))) : Except Int Bprm := do
  let bprm ← copyStrings alloc [some filename] ⟨topOfArgs, fun _ => none⟩
  let bprm ← copyStrings alloc envp bprm
  copyStrings alloc argv bprm

/-- The byte at a position of the pages. -/
def ArgPages.byte (page : ArgPages) (i : Nat) : Option UInt8 :=
  (page (i / 4096)).map (· (i % 4096))

/-- The pages hold the bytes from `pos` to the top, and there are no other pages. -/
structure Packed (page : ArgPages) (pos : Nat) (bytes : List UInt8) : Prop where
  top : pos + bytes.length = topOfArgs
  holds : ∀ i, pos ≤ i → i < topOfArgs → page.byte i = bytes[i - pos]?
  pages : ∀ k, (page k).isSome → ∃ i, pos ≤ i ∧ i < topOfArgs ∧ i / 4096 = k

variable {alloc : Nat → Bool} {page page' : ArgPages} {pos len : Nat} {bytes : List UInt8}

/-! ### One piece -/

/-- The page `k` is there, and the others are as they were. -/
structure PageMapped (page : ArgPages) (k : Nat) (page' : ArgPages) : Prop where
  mapped : (page' k).isSome
  pages : ∀ j, (page' j).isSome → (page j).isSome ∨ j = k
  kept : ∀ j, (page j).isSome → page' j = page j

theorem getArgPage_spec (h : getArgPage alloc page pos = some page') :
    PageMapped page (pos / 4096) page' := by
  unfold getArgPage at h
  split at h
  · cases h
    exact ⟨‹_›, fun _ => .inl, fun _ _ => rfl⟩
  · split at h
    · cases h
      refine ⟨by simp, fun j hj => ?_, fun j hj => Function.update_of_ne ?_ _ _⟩
      · by_cases heq : j = pos / 4096 <;> simp_all
      · rintro rfl
        contradiction
    · cases h

theorem alloc_of_getArgPage (h : getArgPage alloc page pos = none) :
    alloc (pos / 4096) = false := by
  unfold getArgPage at h
  split at h <;> simp_all

theorem byte_copy {k : Nat} (h : (page k).isSome) (offset n : Nat) (str : List UInt8) (i : Nat) :
    (page.copy k offset n str).byte i =
      if i / 4096 = k ∧ offset ≤ i % 4096 ∧ i % 4096 < offset + n then
        some (str.getD (i % 4096 - offset) 0)
      else page.byte i := by
  obtain ⟨bytes, hbytes⟩ := Option.isSome_iff_exists.mp h
  by_cases hi : i / 4096 = k
  · by_cases hin : offset ≤ i % 4096 ∧ i % 4096 < offset + n <;>
      simp [ArgPages.byte, ArgPages.copy, hi, hbytes, hin]
  · simp [ArgPages.byte, ArgPages.copy, hi]

theorem isSome_copy (k offset n : Nat) (str : List UInt8) (j : Nat) :
    (page.copy k offset n str j).isSome = (page j).isSome := by
  by_cases hj : j = k <;> simp [ArgPages.copy, hj]

/-- A piece that ends where the packed bytes begin, and lies in one page. -/
theorem Packed.piece {n offset : Nat} {str : List UInt8} (h : Packed page pos bytes) (hn : 0 < n)
    (hpos : n ≤ pos) (hoff : (pos - n) % 4096 = offset) (hfit : offset + n ≤ 4096)
    (hm : PageMapped page ((pos - n) / 4096) page') (hlen : n ≤ str.length) :
    Packed (page'.copy ((pos - n) / 4096) offset n str) (pos - n) (str.take n ++ bytes) := by
  have htop := h.top
  have htake : (str.take n).length = n := List.length_take_of_le hlen
  refine ⟨?_, fun i hi hlt => ?_, fun k hk => ?_⟩
  · rw [List.length_append]
    omega
  · rw [byte_copy hm.mapped]
    by_cases hin : i < pos
    · have hlt' : i - (pos - n) < n := by omega
      have hidx : i % 4096 - offset = i - (pos - n) := by omega
      rw [if_pos (by omega), List.getElem?_append_left (by omega), hidx]
      simp [hlt', Nat.lt_of_lt_of_le hlt' hlen]
    · have hbyte := h.holds i (by omega) hlt
      have hpage : (page (i / 4096)).isSome := by
        have hsome : (page.byte i).isSome := by
          rw [hbyte, List.getElem?_eq_getElem (by omega)]
          rfl
        simpa [ArgPages.byte] using hsome
      rw [if_neg (by omega), ArgPages.byte, hm.kept _ hpage, ← ArgPages.byte, hbyte,
        List.getElem?_append_right (by omega), htake]
      congr 1
      omega
  · rw [isSome_copy] at hk
    rcases hm.pages k hk with hk | rfl
    · obtain ⟨i, hi, hlt⟩ := h.pages k hk
      exact ⟨i, by omega, hlt⟩
    · exact ⟨pos - n, Nat.le_refl _, by omega, rfl⟩

/-! ### The loops -/

/-- The loop packs what is left of the string, unless a page is missing. -/
theorem copyString_spec (alloc : Nat → Bool) {str : List UInt8} {kpos : Option Nat}
    (h : Packed page pos bytes) (hk : ∀ k ∈ kpos, (page k).isSome) (hpos : len ≤ pos)
    (hlen : len ≤ str.length) :
    (∃ page' kpos', copyString alloc str page kpos pos len = .ok (page', kpos') ∧
        Packed page' (pos - len) (str.take len ++ bytes) ∧ ∀ k ∈ kpos', (page' k).isSome) ∨
      copyString alloc str page kpos pos len = .error (-e2big) ∧ ∃ k < 32, alloc k = false := by
  have htop := h.top
  fun_induction copyString alloc str page kpos pos len generalizing bytes with
  | case1 page kpos pos => exact .inl ⟨page, kpos, rfl, by simpa using h, hk⟩
  | case2 page kpos pos len h0 offset n pos' =>
    rename_i hnone
    refine .inr ⟨rfl, pos' / 4096, ?_, ?_⟩
    · rw [topOfArgs] at htop
      omega
    · split at hnone
      · cases hnone
      · exact alloc_of_getArgPage hnone
  | case3 page kpos pos len h0 offset n pos' page₁ hsome len' page₂ =>
    rename_i ih
    have hm : PageMapped page (pos' / 4096) page₁ := by
      split at hsome
      · cases hsome
        exact ⟨hk _ ‹_›, fun _ => .inl, fun _ _ => rfl⟩
      · exact getArgPage_spec hsome
    have hn : 0 < n ∧ n ≤ len ∧ pos' % 4096 + n = offset ∧ offset ≤ 4096 := by
      simp only [offset, n, pos']
      split <;> split <;> omega
    have hnext : Packed page₂ pos' _ :=
      h.piece hn.1 (by omega) (by omega) (by omega) hm (by rw [List.length_drop]; omega)
    have hmap : ∀ k ∈ some (pos' / 4096), (page₂ k).isSome := by
      rintro k ⟨⟩
      exact (isSome_copy _ _ _ _ _).trans hm.mapped
    rcases ih hnext hmap (by omega) (by omega) hnext.top with ⟨page', kpos', hr, hpk, hk'⟩ | hr
    · refine .inl ⟨page', kpos', hr, ?_, hk'⟩
      rwa [show pos' - len' = pos - len by omega, ← List.append_assoc, ← List.take_add,
        Nat.sub_add_cancel hn.2.1] at hpk
    · exact .inr hr

variable {p : Nat} {new new' : List UInt8} {r : Except Int Bprm}

/-- The outcome of a call: the new bytes are packed below the others, or they do not fit, or a page
is missing. -/
def Packs (alloc : Nat → Bool) (p : Nat) (bytes new : List UInt8) : Except Int Bprm → Prop
  | .ok bprm => Packed bprm.page bprm.p (new ++ bytes)
  | .error err => err = -e2big ∧ (new.length ≤ p → ∃ k < 32, alloc k = false)

theorem Packs.after {q : Nat} (hp : p + bytes.length = topOfArgs)
    (hq : q + (new ++ bytes).length = topOfArgs) (hr : Packs alloc q (new ++ bytes) new' r) :
    Packs alloc p bytes (new' ++ new) r := by
  rw [List.length_append] at hq
  cases r with
  | ok bprm =>
    rw [Packs, List.append_assoc]
    exact hr
  | error err =>
    refine ⟨hr.1, fun hfit => hr.2 ?_⟩
    rw [List.length_append] at hfit
    omega

theorem Packs.bind {f : Bprm → Except Int Bprm} (hp : p + bytes.length = topOfArgs)
    (hr : Packs alloc p bytes new r)
    (hf : ∀ b, Packed b.page b.p (new ++ bytes) → Packs alloc b.p (new ++ bytes) new' (f b)) :
    Packs alloc p bytes (new' ++ new) (r >>= f) := by
  cases r with
  | ok b => exact (hf b hr).after hp hr.top
  | error err =>
    refine ⟨hr.1, fun hfit => hr.2 ?_⟩
    rw [List.length_append] at hfit
    omega

theorem copyStringsLoop_packs {bprm : Bprm} {kpos : Option Nat} (h : Packed bprm.page bprm.p bytes)
    (hk : ∀ k ∈ kpos, (bprm.page k).isSome) (ss : List (List UInt8)) :
    Packs alloc bprm.p bytes (ss.reverse.flatMap (· ++ [0]))
      (copyStringsLoop alloc (ss.map some) bprm kpos) := by
  induction ss generalizing bprm kpos bytes with
  | nil => exact h
  | cons str ss ih =>
    have htop := h.top
    simp only [List.reverse_cons, List.flatMap_append, List.flatMap_singleton, List.map_cons,
      copyStringsLoop]
    by_cases hlen : bprm.p < min (str.length + 1) (maxArgStrlen + 1)
    · rw [if_pos hlen]
      refine ⟨rfl, fun hfit => ?_⟩
      simp only [List.length_append, List.length_singleton] at hfit
      omega
    · -- no string that fits is longer than `MAX_ARG_STRLEN`
      have hmax : min (str.length + 1) (maxArgStrlen + 1) = str.length + 1 := by
        rw [topOfArgs] at htop
        rw [maxArgStrlen] at hlen ⊢
        omega
      rw [if_neg hlen, hmax]
      rw [hmax] at hlen
      have hwhole : (str ++ [0]).length = str.length + 1 := List.length_append
      rcases copyString_spec alloc h hk (Nat.le_of_not_lt hlen) hwhole.ge with
        ⟨page', kpos', hr, hpk, hk'⟩ | ⟨hr, hno⟩
      · rw [hr]
        rw [List.take_of_length_le hwhole.le] at hpk
        exact (ih hpk hk').after htop hpk.top
      · rw [hr]
        exact ⟨rfl, fun _ => hno⟩

theorem copyStrings_packs {bprm : Bprm} (h : Packed bprm.page bprm.p bytes)
    (ss : List (List UInt8)) :
    Packs alloc bprm.p bytes (ss.flatMap (· ++ [0])) (copyStrings alloc (ss.map some) bprm) := by
  have hloop : Packs alloc bprm.p bytes _ (copyStringsLoop alloc (ss.reverse.map some) bprm none) :=
    copyStringsLoop_packs h (by rintro k ⟨⟩) ss.reverse
  rwa [List.reverse_reverse, List.map_reverse] at hloop

theorem execStrings_packs (x : FlatInput) :
    Packs alloc topOfArgs [] x.strings
      (execStrings alloc x.filename (x.envp.map some) (x.argv.map some)) := by
  have h0 : Packed (fun _ => none) topOfArgs [] :=
    ⟨rfl, fun i hi hlt => by omega, by simp⟩
  rw [FlatInput.strings, List.flatMap_append, List.flatMap_append]
  exact .bind rfl (copyStrings_packs h0 [x.filename]) fun b hb =>
    .bind hb.top (copyStrings_packs hb x.envp) fun b hb => copyStrings_packs hb x.argv

/-- What `execve` was given is what the loader finds: from `p` to the top, the pages hold the
arguments, the environment and the file name. Or it fails with `E2BIG`, as the strings are too long
or a page is missing. -/
theorem execve_packs_strings (x : FlatInput) (alloc : Nat → Bool) :
    (x.strings.length ≤ topOfArgs ∧
      ∃ bprm, execStrings alloc x.filename (x.envp.map some) (x.argv.map some) = .ok bprm ∧
        bprm.p = x.p ∧ (∀ i, x.p ≤ i → i < topOfArgs → bprm.page.byte i = some (x.argByte i)) ∧
        ∀ k, (bprm.page k).isSome → x.p / 4096 ≤ k ∧ k < 32) ∨
      execStrings alloc x.filename (x.envp.map some) (x.argv.map some) = .error (-e2big) ∧
        (x.strings.length ≤ topOfArgs → ∃ k < 32, alloc k = false) := by
  have h : Packs alloc topOfArgs [] x.strings _ := execStrings_packs x
  generalize execStrings alloc x.filename (x.envp.map some) (x.argv.map some) = r at h ⊢
  cases r with
  | error err => exact .inr ⟨congrArg _ h.1, h.2⟩
  | ok bprm =>
    rw [Packs, List.append_nil] at h
    have htop := h.top
    have hp : bprm.p = x.p := by
      rw [FlatInput.p]
      omega
    rw [hp] at h htop
    refine .inl ⟨by omega, bprm, rfl, hp, fun i hi hlt => ?_, fun k hk => ?_⟩
    · have hin : i - x.p < x.strings.length := by omega
      rw [h.holds i hi hlt, FlatInput.argByte, if_pos hlt]
      simp [hin]
    · obtain ⟨i, hi, hlt, rfl⟩ := h.pages k hk
      rw [topOfArgs] at hlt
      omega

end LinuxStm32.Fs
