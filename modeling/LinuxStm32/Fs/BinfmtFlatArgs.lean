import LinuxStm32.Fs.BinfmtFlatReloc

/-!
# The initial stack of a flat executable

`fs/binfmt_flat.c:122–163, 891–930`. `load_flat_binary` copies the strings that exec has packed
below `TOP_OF_ARGS` to the end of the data's mapping, and `create_flat_tables` puts the argument
count, the pointers to `argv` and `envp` and the two arrays below them. All offsets of the table
and of the strings are taken from the stack pointer, as the addresses may wrap.
-/

namespace LinuxStm32.Fs

open Base

/-! ### Strings in a row -/

/-- The strings, each with its `NUL`. -/
def packed (ss : List (List UInt8)) : List UInt8 := ss.flatMap (· ++ [0])

/-- Where the `i`-th of the strings starts. -/
def startOf (ss : List (List UInt8)) (i : Nat) : Nat := (packed (ss.take i)).length

theorem packed_cons (s : List UInt8) (ss : List (List UInt8)) :
    packed (s :: ss) = (s ++ [0]) ++ packed ss :=
  List.flatMap_cons

theorem packed_append (ss ts : List (List UInt8)) : packed (ss ++ ts) = packed ss ++ packed ts :=
  List.flatMap_append

theorem startOf_succ (s : List UInt8) (ss : List (List UInt8)) (i : Nat) :
    startOf (s :: ss) (i + 1) = s.length + 1 + startOf ss i := by
  rw [startOf, List.take_succ_cons, packed_cons, List.length_append, List.length_append,
    List.length_singleton, startOf]

/-- Each string of a row is where it starts. -/
theorem holds_of_packed {m : Mem} {a : Nat} {ss : List (List UInt8)} {s : List UInt8} {i : Nat}
    (h : m.Holds a (packed ss)) (hi : ss[i]? = some s) :
    m.Holds (wadd a (startOf ss i)) (s ++ [0]) := by
  obtain ⟨hlt, hget⟩ := List.getElem?_eq_some_iff.mp hi
  have hsplit : ss = ss.take i ++ s :: ss.drop (i + 1) := by
    rw [← hget, List.getElem_cons_drop, List.take_append_drop]
  rw [hsplit, packed_append, packed_cons] at h
  exact h.append_right.append_left

/-- The walk over a string ends behind its `NUL`. -/
theorem skipString_eq {m : Mem} {fuel p : Nat} {s : List UInt8} (hfuel : s.length < fuel)
    (hnul : 0 ∉ s) (hp : p < 4294967296) (h : m.Holds p (s ++ [0])) :
    skipString m fuel p = some (wadd p (s.length + 1)) := by
  induction s generalizing fuel p with
  | nil =>
    obtain ⟨f, rfl⟩ : ∃ f, fuel = f + 1 := ⟨fuel - 1, by omega⟩
    have hzero := h 0 0 rfl
    rw [wadd_zero hp] at hzero
    rw [skipString, if_pos hzero, List.length_nil]
  | cons c s ih =>
    obtain ⟨f, rfl⟩ : ∃ f, fuel = f + 1 := ⟨fuel - 1, by omega⟩
    have hc := h 0 c rfl
    rw [wadd_zero hp] at hc
    have hne : m p ≠ 0 := by
      rw [hc]
      intro hzero
      exact hnul (hzero ▸ List.mem_cons_self)
    have hrest : m.Holds (wadd p 1) (s ++ [0]) :=
      Mem.Holds.append_right (show m.Holds p ([c] ++ (s ++ [0])) from h)
    rw [List.length_cons] at hfuel
    rw [skipString, if_neg hne, ih (by omega) (fun hmem => hnul (List.mem_cons_of_mem c hmem))
      (wadd_lt _ _) hrest, wadd_wadd, List.length_cons, Nat.add_comm 1]

/-! ### The loops of `create_flat_tables` -/

section Tables

variable {m : Mem} {fuel sp : Nat}

/-- The pointers to the strings from offset `d` on are written from offset `j` on. -/
theorem twp_pointerLoop {Q : Nat → Mem → Prop} {ss : List (List UInt8)} {j d : Nat}
    (hsp : sp < 4294967296) (hfuel : (packed ss).length < fuel) (hnul : ∀ s ∈ ss, 0 ∉ s)
    (hstr : m.Holds (wadd sp d) (packed ss)) (hroom : j + 4 * ss.length ≤ d)
    (htop : d + (packed ss).length ≤ 4294967296)
    (hQ : ∀ m', Mem.ChangesIn m m' sp j (j + 4 * ss.length) →
      (∀ i < ss.length, m'.word (wadd sp (j + 4 * i)) = wadd sp (d + startOf ss i)) →
      Q (wadd sp (d + (packed ss).length)) m') :
    Prog.twp (pointerLoop fuel ss.length (wadd sp d) (wadd sp j)) Q m := by
  induction ss generalizing j d m with
  | nil =>
    rw [List.length_nil, pointerLoop, Prog.twp_pure]
    exact hQ m (fun _ _ _ => rfl) fun i hi => absurd hi (Nat.not_lt_zero i)
  | cons s ss ih =>
    rw [packed_cons] at hstr
    rw [packed_cons, List.length_append, List.length_append, List.length_singleton] at hfuel htop
    rw [List.length_cons] at hroom
    have hfirst : Mem.ChangesIn m (m.write (wadd sp j) 4 (Mem.bytesOf (wadd sp d))) sp j (j + 4) :=
      .write m _ hsp (by omega)
    generalize hm₁ : m.write (wadd sp j) 4 (Mem.bytesOf (wadd sp d)) = m₁ at hfirst
    have hptr : m₁.word (wadd sp j) = wadd sp d := by
      rw [← hm₁, Mem.word_write m (wadd_lt _ _) (wadd_lt _ _)]
    have hstr₁ := hfirst.holds hsp (by omega)
      (by rw [List.length_append, List.length_append, List.length_singleton]; omega) hstr
    have hskip : skipString m₁ fuel (wadd sp d) = _ := skipString_eq (by omega)
      (hnul s List.mem_cons_self) (wadd_lt _ _) hstr₁.append_left
    have hrest := hstr₁.append_right
    rw [wadd_wadd] at hskip hrest
    rw [List.length_append, List.length_singleton] at hrest
    rw [List.length_cons, pointerLoop, Prog.twp_bind, Prog.twp_store32, hm₁, Prog.twp_bind,
      Prog.twp_inspect, hskip]
    dsimp only
    rw [wadd_wadd]
    apply ih (by omega) (fun t ht => hnul t (List.mem_cons_of_mem s ht)) hrest (by omega) (by omega)
    intro m' hchange hwords
    have hlen : j + 4 * (s :: ss).length = j + 4 + 4 * ss.length := by
      rw [List.length_cons]
      omega
    have hend : d + (packed (s :: ss)).length = d + (s.length + 1) + (packed ss).length := by
      rw [packed_cons, List.length_append, List.length_append, List.length_singleton]
      omega
    rw [hlen, hend] at hQ
    apply hQ m' (hfirst.trans hchange (by omega) (by omega))
    intro i hi
    cases i with
    | zero =>
      rw [Nat.mul_zero, Nat.add_zero, hchange.word hsp (by omega) (.inl (Nat.le_refl _)), hptr]
      rfl
    | succ i =>
      rw [List.length_cons] at hi
      rw [startOf_succ, ← Nat.add_assoc, ← hwords i (by omega), Nat.mul_succ, Nat.add_assoc,
        Nat.add_comm 4]

/-- What `create_flat_tables` leaves at the stack pointer, with the strings `d` bytes above it. -/
structure FlatTable (argv envp : List (List UInt8)) (sp d : Nat) (m : Mem) : Prop where
  argc : m.word sp = argv.length
  argvPtr : m.word (wadd sp 4) = wadd sp 12
  envpPtr : m.word (wadd sp 8) = wadd sp (16 + 4 * argv.length)
  args : ∀ i < argv.length, m.word (wadd sp (12 + 4 * i)) = wadd sp (d + startOf argv i)
  argsEnd : m.word (wadd sp (12 + 4 * argv.length)) = 0
  envs : ∀ i < envp.length, m.word (wadd sp (16 + 4 * argv.length + 4 * i)) =
    wadd sp (d + (packed argv).length + startOf envp i)
  envsEnd : m.word (wadd sp (16 + 4 * argv.length + 4 * envp.length)) = 0
  strings : m.Holds (wadd sp d) (packed argv ++ packed envp)

/-- The strings are `d` bytes above the table of pointers, which is put below them. -/
theorem twp_createFlatTables {argv envp : List (List UInt8)} {pp d : Nat}
    (hsp : sp = alignDown (wsub pp (wmul (envp.length + argv.length + 5) 4)) 8)
    (hpp : wadd sp d = pp) (hroom : 4 * (argv.length + envp.length + 5) ≤ d)
    (htop : d + (packed argv).length + (packed envp).length ≤ 4294967296)
    (hfuel : (packed argv).length + (packed envp).length < fuel)
    (hnul : ∀ s ∈ argv ++ envp, 0 ∉ s) (hstr : m.Holds pp (packed argv ++ packed envp)) :
    Prog.twp (createFlatTables fuel pp argv.length envp.length)
      (fun v m' => v = sp ∧ FlatTable argv envp sp d m') m := by
  have hsplt : sp < 4294967296 := by
    have := wsub_lt pp (wmul (envp.length + argv.length + 5) 4)
    rw [hsp, alignDown]
    omega
  have hargv : wadd (wadd sp 12) (wmul argv.length 4) = wadd sp (12 + 4 * argv.length) := by
    simp only [wadd, wmul]
    omega
  have henvp : wadd (wadd sp 12) (wmul (argv.length + 1) 4) = wadd sp (16 + 4 * argv.length) := by
    simp only [wadd, wmul]
    omega
  have hlast : wadd (wadd sp (16 + 4 * argv.length)) (wmul envp.length 4) =
      wadd sp (16 + 4 * argv.length + 4 * envp.length) := by
    simp only [wadd, wmul]
    omega
  have hzero : wadd sp 0 = sp := wadd_zero hsplt
  have hlen : d + (packed argv ++ packed envp).length ≤ 4294967296 := by
    rw [List.length_append]
    omega
  rw [createFlatTables, ← hsp]
  simp only [hargv, henvp, hlast, Prog.twp_bind, Prog.twp_store32, Prog.twp_pure]
  -- the three words at the stack pointer
  have h1 : Mem.ChangesIn m (m.write (wadd sp 8) 4 (Mem.bytesOf (wadd sp (16 + 4 * argv.length))))
      sp 8 (8 + 4) := .write m _ hsplt (by decide)
  have hw1 := Mem.word_write m (wadd_lt sp 8) (wadd_lt sp (16 + 4 * argv.length))
  generalize m.write (wadd sp 8) 4 (Mem.bytesOf (wadd sp (16 + 4 * argv.length))) = m₁ at h1 hw1 ⊢
  have h2 : Mem.ChangesIn m₁ (m₁.write (wadd sp 4) 4 (Mem.bytesOf (wadd sp 12))) sp 4 (4 + 4) :=
    .write m₁ _ hsplt (by decide)
  have hw2 := Mem.word_write m₁ (wadd_lt sp 4) (wadd_lt sp 12)
  generalize m₁.write (wadd sp 4) 4 (Mem.bytesOf (wadd sp 12)) = m₂ at h2 hw2 ⊢
  have h3 : Mem.ChangesIn m₂ (m₂.write (wadd sp 0) 4 (Mem.bytesOf argv.length)) sp 0 (0 + 4) :=
    .write m₂ _ hsplt (by decide)
  rw [hzero] at h3
  have hw3 := Mem.word_write m₂ hsplt (show argv.length < 4294967296 by omega)
  generalize m₂.write sp 4 (Mem.bytesOf argv.length) = m₃ at h3 hw3 ⊢
  have hstr₃ : m₃.Holds (wadd sp d) (packed argv ++ packed envp) := by
    rw [← hpp] at hstr
    exact h3.holds hsplt (by omega) hlen (h2.holds hsplt (by omega) hlen
      (h1.holds hsplt (by omega) hlen hstr))
  rw [← hpp]
  apply twp_pointerLoop hsplt (by omega)
    (fun s hs => hnul s (List.mem_append_left envp hs)) hstr₃.append_left (by omega) (by omega)
  intro m₄ h4 hargs
  have h5 : Mem.ChangesIn m₄ (m₄.write (wadd sp (12 + 4 * argv.length)) 4 (Mem.bytesOf 0)) sp
      (12 + 4 * argv.length) (12 + 4 * argv.length + 4) := .write m₄ _ hsplt (by omega)
  have hw5 := Mem.word_write m₄ (wadd_lt sp (12 + 4 * argv.length)) (show 0 < 4294967296 by decide)
  generalize m₄.write (wadd sp (12 + 4 * argv.length)) 4 (Mem.bytesOf 0) = m₅ at h5 hw5 ⊢
  have hstr₅ : m₅.Holds (wadd sp d) (packed argv ++ packed envp) := by
    exact h5.holds hsplt (by omega) hlen (h4.holds hsplt (by omega) hlen hstr₃)
  have henvs := hstr₅.append_right
  rw [wadd_wadd] at henvs
  apply twp_pointerLoop hsplt (by omega)
    (fun s hs => hnul s (List.mem_append_right argv hs)) henvs (by omega) (by omega)
  intro m₆ h6 henvs
  have h7 : Mem.ChangesIn m₆
      (m₆.write (wadd sp (16 + 4 * argv.length + 4 * envp.length)) 4 (Mem.bytesOf 0)) sp
      (16 + 4 * argv.length + 4 * envp.length) (16 + 4 * argv.length + 4 * envp.length + 4) :=
    .write m₆ _ hsplt (by omega)
  have hw7 := Mem.word_write m₆ (wadd_lt sp (16 + 4 * argv.length + 4 * envp.length))
    (show 0 < 4294967296 by decide)
  generalize m₆.write (wadd sp (16 + 4 * argv.length + 4 * envp.length)) 4 (Mem.bytesOf 0) = m₇
    at h7 hw7 ⊢
  -- words below the arrays are kept by everything that follows them
  have hlow (j : Nat) (hj : j + 4 ≤ 12) : m₇.word (wadd sp j) = m₃.word (wadd sp j) := by
    rw [h7.word hsplt (by omega) (by omega), h6.word hsplt (by omega) (by omega),
      h5.word hsplt (by omega) (by omega), h4.word hsplt (by omega) (by omega)]
  refine ⟨trivial, ?_, ?_, ?_, fun i hi => ?_, ?_, fun i hi => ?_, hw7, ?_⟩
  · have h0 := hlow 0 (by decide)
    rw [hzero] at h0
    rw [h0, hw3]
  · rw [hlow 4 (by decide), h3.word hsplt (by decide) (by decide), hw2]
  · rw [hlow 8 (by decide), h3.word hsplt (by decide) (by decide),
      h2.word hsplt (by decide) (by decide), hw1]
  · rw [h7.word hsplt (by omega) (by omega), h6.word hsplt (by omega) (by omega),
      h5.word hsplt (by omega) (by omega), hargs i hi]
  · rw [h7.word hsplt (by omega) (by omega), h6.word hsplt (by omega) (by omega), hw5]
  · rw [h7.word hsplt (by omega) (by omega), henvs i hi]
  · exact h7.holds hsplt (by omega) hlen (h6.holds hsplt (by omega) hlen hstr₅)

end Tables

/-! ### The copy of the strings -/

section Copy

variable {x : FlatInput} {Q : Nat → Mem → Prop}

/-- The loop copies the bytes of the argument pages from `bprm->p` up to `i` below `dst`. -/
theorem twp_copyArgs (hp : 0 < x.p) {n fuel i dst : Nat} {m : Mem} (hfuel : n < fuel)
    (hi : i + 1 = x.p + n) (hilt : i < 4294967296) (hdst : dst < 4294967296)
    (hn : n < 4294967296)
    (hQ : Q (wsub dst n) (m.write (wsub dst n) n fun k => x.argByte (x.p + k))) :
    Prog.twp (x.copyArgs fuel i dst) Q m := by
  induction n generalizing fuel i dst m with
  | zero =>
    obtain ⟨f, rfl⟩ : ∃ f, fuel = f + 1 := ⟨fuel - 1, by omega⟩
    have h0 : wsub dst 0 = dst := by simp only [wsub]; omega
    rw [h0, Mem.write_zero] at hQ
    rw [FlatInput.copyArgs, if_neg (by omega), Prog.twp_pure]
    exact hQ
  | succ n ih =>
    obtain ⟨f, rfl⟩ : ∃ f, fuel = f + 1 := ⟨fuel - 1, by omega⟩
    have hi' : wsub i 1 = i - 1 := wsub_of_le hilt (by omega)
    have hd : wsub (wsub dst 1) n = wsub dst (n + 1) := by simp only [wsub]; omega
    have htop : wsub dst 1 = wadd (wsub dst (n + 1)) n := by simp only [wsub, wadd]; omega
    rw [FlatInput.copyArgs, if_pos (by omega), Prog.twp_bind, Prog.twp_fill]
    apply ih (by omega) (by omega) (by omega) (wsub_lt _ _) (by omega)
    rw [hd, htop, Mem.write_write _ _ _ (wsub_lt _ _) (by omega)]
    have hbytes (k : Nat) (hk : k < n + 1) :
        (if k < n then x.argByte (x.p + k) else x.argByte i) = x.argByte (x.p + k) := by
      split
      · rfl
      · rw [show i = x.p + k by omega]
    rw [Mem.write_congr m hbytes]
    exact hQ

/-- With `bprm->p` 0 the loop does not end. -/
theorem copyArgs_result (hp : x.p = 0) (n i dst : Nat) (m : Mem) :
    (x.copyArgs n i dst m).result = .error .endless := by
  induction n generalizing i dst m with
  | zero => rfl
  | succ n ih =>
    rw [FlatInput.copyArgs, if_pos (by omega)]
    exact ih (wsub i 1) (wsub dst 1) _

/-- The copied bytes are the strings. -/
theorem holds_strings {x : FlatExec} {m : Mem} {a : Nat} (ha : a < 4294967296) :
    (m.write a x.strings.length fun k => x.argByte (x.p + k)).Holds a x.strings := by
  intro k c hk
  have hlt := (List.getElem?_eq_some_iff.mp hk).1
  have hfits := x.fits
  have hp : x.p = topOfArgs - x.strings.length := rfl
  have htop : topOfArgs = 131068 := rfl
  rw [Mem.write_at _ _ ha hlt (by omega), FlatInput.argByte, if_pos (by omega),
    Nat.add_sub_cancel_left, List.getD_eq_getElem?_getD, hk, Option.getD_some]

end Copy

/-! ### The whole of the initial stack -/

namespace FlatInput

variable (x : FlatInput)

/-- The address of the copied strings, `p` when `create_flat_tables` is called. -/
def stringsAt (lib : FlatImage) : Nat := wsub (x.stackTop lib) x.strings.length

/-- What a program finds at its stack pointer: the count, and through two pointers the arrays of
pointers to its arguments and environment, each ended by a null pointer and none of this in the
strings themselves. -/
structure ArgsArrive (lib : FlatImage) (sp : Nat) (m : Mem) : Prop where
  aligned : sp % 8 = 0
  argc : m.word sp = x.argc
  argvPtr : m.word (wadd sp 4) = wadd sp 12
  envpPtr : m.word (wadd sp 8) = wadd sp (12 + 4 * (x.argc + 1))
  args : ∀ i s, x.argv[i]? = some s →
    m.Holds (m.word (wadd (m.word (wadd sp 4)) (4 * i))) (s ++ [0])
  argsEnd : m.word (wadd (m.word (wadd sp 4)) (4 * x.argc)) = 0
  envs : ∀ i s, x.envp[i]? = some s →
    m.Holds (m.word (wadd (m.word (wadd sp 8)) (4 * i))) (s ++ [0])
  envsEnd : m.word (wadd (m.word (wadd sp 8)) (4 * x.envc)) = 0
  apart : ∀ j < 4 * (x.argc + x.envc + 5), ∀ k < x.strings.length,
    wadd sp j ≠ wadd (x.stringsAt lib) k

/-- No string has a `NUL` in it. -/
def CStrings : Prop := ∀ s ∈ x.argv ++ x.envp, 0 ∉ s

end FlatInput

/-- The table, the strings and the pointers between them are what a program is promised. -/
theorem FlatTable.arrive {x : FlatInput} {lib : FlatImage} {sp d : Nat} {m : Mem}
    (h : FlatTable x.argv x.envp sp d m) (haligned : sp % 8 = 0)
    (hat : wadd sp d = x.stringsAt lib) (hroom : 4 * (x.argc + x.envc + 5) ≤ d)
    (htop : d + x.strings.length ≤ 4294967296) : x.ArgsArrive lib sp m := by
  have henvp : 16 + 4 * x.argv.length = 12 + 4 * (x.argc + 1) := by
    rw [FlatInput.argc]
    omega
  refine ⟨haligned, h.argc, h.argvPtr, henvp ▸ h.envpPtr, fun i s hi => ?_, ?_,
    fun i s hi => ?_, ?_,
    fun j hj k hk => ?_⟩
  · have hlt := (List.getElem?_eq_some_iff.mp hi).1
    rw [h.argvPtr, wadd_wadd, h.args i hlt, ← wadd_wadd]
    exact holds_of_packed h.strings.append_left hi
  · rw [h.argvPtr, wadd_wadd]
    exact h.argsEnd
  · have hlt := (List.getElem?_eq_some_iff.mp hi).1
    have hstr := h.strings.append_right
    rw [wadd_wadd] at hstr
    rw [h.envpPtr, wadd_wadd, h.envs i hlt, ← wadd_wadd]
    exact holds_of_packed hstr hi
  · rw [h.envpPtr, wadd_wadd]
    exact h.envsEnd
  · rw [← hat, wadd_wadd]
    unfold wadd
    omega

/-- Strings that leave the first byte of the argument pages free arrive. -/
theorem twp_startImage {x : FlatExec} {lib : FlatImage} {m : Mem} (hnul : x.CStrings)
    (hp : 0 < x.p) :
    Prog.twp (x.startImage 4294967297 lib) (fun r m' => x.ArgsArrive lib r.2 m') m := by
  have hfits := x.fits
  have htop : topOfArgs = 131068 := rfl
  have hcount := count_lt_strings x.toFlatInput
  have hpeq : x.p = topOfArgs - x.strings.length := rfl
  have hlast : topOfArgs - 1 + 1 = x.p + x.strings.length := by omega
  have hpp : x.stringsAt lib < 4294967296 := by
    rw [FlatInput.stringsAt]
    exact wsub_lt _ _
  rw [FlatInput.startImage, Prog.twp_bind, Prog.twp_store32, FlatInput.putArgs, Prog.twp_bind]
  apply twp_copyArgs hp (show x.strings.length < 4294967297 by omega) hlast (by omega)
    (by rw [FlatInput.stackTop]; exact wsub_lt _ _) (by omega)
  rw [← FlatInput.stringsAt, Prog.twp_bind]
  have hstr := holds_strings (x := x)
    (m := m.write (wsub lib.startData 4) 4 (Mem.bytesOf lib.startData)) hpp
  have hpacked : x.strings = (packed x.argv ++ packed x.envp) ++ packed [x.filename] := by
    rw [← packed_append, ← packed_append]
    rfl
  have hlen : (packed x.argv).length + (packed x.envp).length ≤ x.strings.length := by
    rw [hpacked, List.length_append, List.length_append]
    omega
  generalize (m.write (wsub lib.startData 4) 4 (Mem.bytesOf lib.startData)).write
    (x.stringsAt lib) x.strings.length (fun k => x.argByte (x.p + k)) = m' at hstr ⊢
  generalize hsp : alignDown (wsub (x.stringsAt lib) (wmul (x.envc + x.argc + 5) 4)) 8 = sp
  have hspa : sp % 8 = 0 := by
    rw [← hsp, alignDown]
    omega
  have hd : 4 * (x.argc + x.envc + 5) ≤ wsub (x.stringsAt lib) sp ∧
      wsub (x.stringsAt lib) sp < 4 * (x.argc + x.envc + 5) + 8 ∧ sp < 4294967296 := by
    rw [← hsp]
    unfold alignDown wmul wsub
    omega
  rw [hpacked] at hstr
  have hfuel : (packed x.argv).length + (packed x.envp).length < 4294967297 := by omega
  have htables := twp_createFlatTables hsp.symm (wadd_wsub hd.2.2 hpp) hd.1 (by omega) hfuel hnul
    hstr.append_left
  obtain ⟨v, hv, rfl, htable⟩ := htables
  exact ⟨v, hv, (Prog.twp_pure _).mpr
    (htable.arrive hspa (wadd_wsub hd.2.2 hpp) hd.1 (by omega))⟩

/-- After `load_flat_file` has returned, `load_flat_binary` returns with the arguments and the
environment in place exactly when the strings do not fill the argument pages to the first byte. -/
theorem flat_args_intact (x : FlatExec) (hnul : x.CStrings) {lib : FlatImage}
    (hret : (x.loadFlatFile x.mem).result = .ok lib) :
    Prog.twp x.loadFlatBinary (fun r m => x.ArgsArrive lib r.2 m) x.mem ↔
      x.strings.length < topOfArgs := by
  have hpeq : x.p = topOfArgs - x.strings.length := rfl
  rw [FlatInput.loadFlatBinary, Prog.twp_bind, Prog.twp_iff_of_result hret]
  constructor
  · intro h
    apply Nat.lt_of_not_le
    intro hle
    have hp : x.p = 0 := by omega
    rw [FlatInput.startImage, Prog.twp_bind, Prog.twp_store32, FlatInput.putArgs,
      Prog.twp_bind] at h
    obtain ⟨v, hv, -⟩ := h
    rw [copyArgs_result hp] at hv
    cases hv
  · intro hlt
    exact twp_startImage hnul (by omega)

/-- The one argument of `pairExec` arrives. -/
theorem flat_args_intact_pair : ∃ lib,
    (pairExec.loadFlatFile pairExec.mem).result = .ok lib ∧
      Prog.twp pairExec.loadFlatBinary (fun r m => pairExec.ArgsArrive lib r.2 m) pairExec.mem := by
  obtain ⟨lib, hret⟩ := pairExec_returns
  exact ⟨lib, hret, (flat_args_intact pairExec (by unfold FlatInput.CStrings; decide) hret).mpr
    (by decide)⟩

section Full

variable {arg : List UInt8}

/-- The words of the header of an image of text and four bytes of data. -/
def smallWords : List Nat := [64, 68, 72, 4096, 68, 0]

/-- The exec of such an image with one argument. -/
def oneArgInput (arg : List UInt8) : FlatInput :=
  ramInput smallWords (List.replicate 68 0) [arg]

theorem oneArgInput_strings (arg : List UInt8) :
    (oneArgInput arg).strings.length = arg.length + 3 := by
  simp [FlatInput.strings, oneArgInput, ramInput]

theorem oneArgInput_file (arg : List UInt8) : (oneArgInput arg).file.length = 68 :=
  List.length_replicate

theorem oneArgInput_hdr (arg : List UInt8) : (oneArgInput arg).hdr =
    ⟨[0x62, 0x46, 0x4c, 0x54], 4, 64, 64, 68, 72, 4096, 68, 0, 1⟩ := by
  have hbuf : flatHdr (fun i => (ramHeader smallWords).getD i 0) =
      ⟨[0x62, 0x46, 0x4c, 0x54], 4, 64, 64, 68, 72, 4096, 68, 0, 1⟩ := by decide +kernel
  rw [← hbuf]
  rfl

theorem oneArgInput_flags (arg : List UInt8) : (oneArgInput arg).flags = 1 := by
  rw [FlatInput.flags, oneArgInput_hdr]
  decide

theorem oneArgInput_ram (arg : List UInt8) : (oneArgInput arg).ram = true := by
  rw [FlatInput.ram, oneArgInput_flags]
  decide

theorem oneArgInput_mapped (arg : List UInt8) :
    mapped (oneArgInput arg).textMap = .ok 0xC0100000 := by
  have hmap : (oneArgInput arg).textMap = 0xC0100000 := rfl
  rw [hmap]
  rfl

variable (harg : arg.length = 131065)

include harg

theorem oneArgInput_p : (oneArgInput arg).p = 0 := by
  rw [FlatInput.p, oneArgInput_strings, harg, topOfArgs]

theorem oneArgInput_mapLen : (oneArgInput arg).mapLen = 139264 := by
  have hargc : (oneArgInput arg).argc = 1 := rfl
  have henvc : (oneArgInput arg).envc = 0 := rfl
  have hextra : (oneArgInput arg).extraStack = 131087 := by
    rw [FlatInput.extraStack, oneArgInput_p harg, hargc, henvc]
    decide
  rw [FlatInput.mapLen, if_pos (oneArgInput_ram arg), FlatInput.extra, FlatInput.stackLen, hextra,
    FlatInput.textLen, FlatInput.dataLen, FlatInput.bssLen, FlatInput.relocBytes, oneArgInput_hdr]
  decide

/-- The argument, the file name and their `NUL`s fill the argument pages. -/
def fullExec : FlatExec :=
  ramExec smallWords (List.replicate 68 0) [arg]
    (by
      have hlen := oneArgInput_strings arg
      rw [oneArgInput] at hlen
      rw [hlen, harg]
      decide)
    (by
      have hram := oneArgInput_ram arg
      have hlen := oneArgInput_mapLen harg
      rw [oneArgInput] at hram hlen
      rw [if_pos hram, hlen]
      decide)

/-- The mapping of `fullExec`. -/
def fullLayout : Layout :=
  ⟨0xC0100000, 0xC0100048, 0xC0100000, 139264, [⟨0xC0100000, 139264⟩]⟩

theorem fullExec_layout : (oneArgInput arg).layout = .ok fullLayout := by
  have hcheck : (oneArgInput arg).check = .ok () := by
    rw [FlatInput.check.eq_def, FlatInput.dataLen, FlatInput.bssLen, oneArgInput_hdr,
      oneArgInput_flags]
    rfl
  rw [FlatInput.layout, hcheck, oneArgInput_mapLen harg, if_pos (oneArgInput_ram arg),
    oneArgInput_hdr, oneArgInput_mapped]
  rfl

omit harg in
theorem fullExec_relocatable : (oneArgInput arg).Relocatable fullLayout := by
  have htable : (oneArgInput arg).relocTable = [] := by
    rw [FlatInput.relocTable, oneArgInput_hdr]
    rfl
  constructor
  case mapped =>
    rw [oneArgInput_ram]
    exact fun h => absurd h (by decide)
  case got =>
    rw [FlatInput.gotpic, oneArgInput_flags]
    decide
  case apart =>
    rw [htable]
    exact List.Pairwise.nil
  case entries =>
    rw [htable]
    exact fun r hr => absurd hr List.not_mem_nil
  case file =>
    rw [oneArgInput_hdr, oneArgInput_file]
    decide
  case start => decide
  case rev =>
    rw [oneArgInput_hdr]
    rfl
  case reloc => rw [oneArgInput_hdr]
  all_goals
    rewrite [oneArgInput_hdr]
    decide

/-- The file is loaded, but the copy of the strings does not end. -/
theorem loadFlatBinary_full :
    ((oneArgInput arg).loadFlatBinary (oneArgInput arg).mem).result = .error .endless := by
  have htwp : Prog.twp (oneArgInput arg).loadFlatFile (fun _ _ => True) (oneArgInput arg).mem := by
    apply (twp_loadFlatFile (fullExec_layout harg) fullExec_relocatable
      (fits_of_layout (x := fullExec harg) (fullExec_layout harg) fullExec_relocatable ·.text)).mpr
    refine ⟨⟨fun _ => ⟨rfl, ?_⟩, rfl, ?_⟩, ?_, trivial⟩
    · rw [FlatInput.textBytes, FlatInput.textLen, oneArgInput_hdr, oneArgInput_file]
      decide
    · rw [FlatInput.dataBytes, FlatInput.dataLen, FlatInput.relocBytes, oneArgInput_hdr,
        oneArgInput_file]
      decide
    · rw [FlatInput.AllAccepted, FlatInput.relocTable, oneArgInput_hdr]
      exact fun r hr => absurd hr List.not_mem_nil
  obtain ⟨lib, hret, -⟩ := htwp
  rw [FlatInput.loadFlatBinary, Prog.result_bind hret, FlatInput.startImage, Prog.result_bind rfl,
    FlatInput.putArgs]
  exact Prog.result_bind_error (copyArgs_result (oneArgInput_p harg) _ _ _ _)

end Full

/-- One argument of 131065 bytes: with the file name and two `NUL`s, all of the 131068 bytes. -/
theorem flat_args_endless :
    ((oneArgInput (List.replicate 131065 97)).loadFlatBinary
      (oneArgInput (List.replicate 131065 97)).mem).result = .error .endless :=
  loadFlatBinary_full List.length_replicate

/-! ### The room that is reserved -/

namespace FlatInput

variable (x : FlatInput)

/-- Every byte that is put on the stack lies from `end_brk` up to the end of the mapping, and the
heap starts below `end_brk`. -/
structure StackCovered (l : Layout) (m : Mem) : Prop where
  stack : ∀ a ∈ (x.putArgs 4294967297 (x.image l) m).accesses,
    a.Inside fun b => (x.image l).endBrk ≤ b ∧ b < l.memp + l.mempSize
  heap : (x.image l).startBrk ≤ (x.image l).endBrk

/-- `stack_size` and the bytes that `load_flat_binary` adds to it. -/
def reserved : Nat :=
  wadd x.hdr.stackSize (x.strings.length + 4 * (x.argc + x.envc) + 15)

/-- Room for the strings, the table and their alignment in what is reserved, and room for that
behind the bss in the mapping. -/
structure StackRoom (l : Layout) : Prop where
  pages : x.strings.length < topOfArgs
  stack : (x.strings.length + 4 * (x.argc + x.envc) + 31) / 8 * 8 ≤ x.reserved
  heap : wadd l.datapos (wsub x.hdr.bssEnd x.hdr.dataStart) + x.reserved ≤ l.memp + l.mempSize

end FlatInput

theorem reserved_lt (x : FlatInput) : x.reserved < 4294967296 := by
  rw [FlatInput.reserved]
  exact wadd_lt _ _

theorem reserved_eq (x : FlatExec) : x.stackLen = x.reserved := by
  have hfits := x.fits
  have hcount := count_lt_strings x.toFlatInput
  rw [FlatInput.stackLen, FlatInput.reserved, FlatInput.extraStack, FlatInput.p]
  rw [topOfArgs] at hfits ⊢
  generalize x.strings.length = len at *
  generalize x.argc = argc at *
  generalize x.envc = envc at *
  generalize x.hdr.stackSize = size
  have hsum : wadd (wadd (wadd (wsub 131068 (131068 - len)) (wmul (argc + 1) 4))
      (wmul (envc + 1) 4)) 7 = len + 4 * (argc + envc) + 15 := by
    simp only [wadd, wsub, wmul]
    omega
  rw [hsum]

/-- The lowest byte of the table decides whether all of the stack is above a limit. -/
theorem stack_inside_iff {e s len c sp : Nat} (he : e < 4294967296) (he8 : e % 8 = 0)
    (he' : 8192 ≤ e) (hs : s ≤ e) (hlen : c + 1 ≤ len) (hlen' : len ≤ 131068)
    (hsp : sp = alignDown (wsub (wsub (e - 4) len) (4 * (c + 5))) 8) :
    (Access.Inside (fun b => e - s ≤ b ∧ b < e) ⟨wsub (e - 4) len, len⟩ ∧
      Access.Inside (fun b => e - s ≤ b ∧ b < e) ⟨sp, 4 * (c + 5)⟩) ↔
      (len + 4 * c + 31) / 8 * 8 ≤ s := by
  constructor
  · rintro ⟨-, htable⟩
    have hlow := htable 0 (by dsimp only; omega)
    dsimp only at hlow
    rw [hsp] at hlow
    unfold wadd wsub alignDown at hlow
    omega
  · intro hle
    have hpp : wsub (e - 4) len = e - 4 - len := wsub_of_le (by omega) (by omega)
    rw [hpp] at hsp ⊢
    rw [wsub_of_le (by omega) (by omega), alignDown] at hsp
    constructor
    · intro k hk
      dsimp only at hk ⊢
      rw [wadd_of_lt (by omega)]
      omega
    · intro k hk
      dsimp only at hk ⊢
      rw [wadd_of_lt (by omega)]
      omega

/-- Distances add up. -/
theorem wadd_wsub_wsub {t d : Nat} (a b : Nat) (ht : t < 4294967296) (hd : d < 4294967296) :
    wadd (wadd a (wsub d t)) (wsub b d) = wadd a (wsub b t) := by
  simp only [wadd, wsub]
  omega

/-- The values that `load_flat_file` records, and where the copy of the strings starts. -/
structure StackPlace (x : FlatInput) (l : Layout) (e : Nat) : Prop where
  top : e < 4294967296
  low : 8192 ≤ e
  aligned : e % 8 = 0
  endBrk : (x.image l).endBrk = wsub e x.reserved
  startBrk : (x.image l).startBrk = wadd l.datapos (wsub x.hdr.bssEnd x.hdr.dataStart)
  dst : x.stackTop (x.image l) = e - 4

theorem stackPlace {x : FlatExec} {l : Layout} (hl : x.layout = .ok l) :
    StackPlace x.toFlatInput l (l.memp + l.mempSize) := by
  have g := good_of_layout hl
  have hlo := g.lo_le
  have hpage := g.page
  have hsize := g.size
  have hhi := g.le_hi
  have htop := g.span.top
  have hend8 := g.end_aligned
  have he : wadd l.memp l.mempSize = l.memp + l.mempSize := wadd_of_lt (by omega)
  have hbrk : (x.image l).endBrk = wsub (l.memp + l.mempSize) x.reserved := by
    rw [FlatInput.image, he, reserved_eq]
  have hreserved := reserved_lt x.toFlatInput
  refine ⟨by omega, by omega, hend8, hbrk, ?_, ?_⟩
  · rw [FlatInput.image, FlatInput.dataLen, FlatInput.bssLen,
      wadd_wsub_wsub _ _ (dataStart_lt _) (dataEnd_lt _)]
  · rw [FlatInput.stackTop, hbrk, reserved_eq]
    generalize x.reserved = r at *
    simp only [wadd, wsub, alignDown]
    omega

/-- What is put on the stack is above `end_brk`, and the heap below it, exactly when there is room
for it in what `load_flat_binary` adds to `stack_size`, and in the mapping for the whole. -/
theorem flat_stack_covered (x : FlatExec) {l : Layout} (hl : x.layout = .ok l) (m : Mem) :
    x.StackCovered l m ↔ x.StackRoom l := by
  have h := stackPlace hl
  have hlow := h.low
  have htop := h.top
  have hfits := x.fits
  have hcount := count_lt_strings x.toFlatInput
  have hreserved := reserved_lt x.toFlatInput
  have hpeq : x.p = topOfArgs - x.strings.length := rfl
  have hstack : (∀ a ∈ (x.putArgs 4294967297 (x.image l) m).accesses, a.Inside fun b =>
      (x.image l).endBrk ≤ b ∧ b < l.memp + l.mempSize) ↔
      Prog.wp (fun b => wsub (l.memp + l.mempSize) x.reserved ≤ b ∧ b < l.memp + l.mempSize) (do
        let p ← x.copyArgs 4294967297 (topOfArgs - 1) (l.memp + l.mempSize - 4)
        let sp ← createFlatTables 4294967297 p x.argc x.envc
        return ((x.image l).entry, sp)) (fun _ _ => True) m := by
    rw [Prog.wp_true, FlatInput.putArgs, h.dst, h.endBrk]
  have hcovered : x.StackCovered l m ↔ _ ∧ (x.image l).startBrk ≤ (x.image l).endBrk :=
    ⟨fun hc => ⟨hc.stack, hc.heap⟩, fun hc => ⟨hc.1, hc.2⟩⟩
  rw [hcovered, hstack, h.startBrk, h.endBrk]
  rcases Nat.eq_zero_or_pos x.p with hp | hp
  · -- the copy that does not end writes behind the mapping
    constructor
    · rintro ⟨hwp, -⟩
      have hout := copyTables_endless hp (by decide) (by omega) hwp htop (by omega)
      exact absurd hout.2 (Nat.lt_irrefl _)
    · intro hroom
      have hpages := hroom.pages
      omega
  rw [wp_copyTables hp (by decide) (by omega) rfl]
  by_cases hr : x.reserved ≤ l.memp + l.mempSize
  · rw [wsub_of_le htop hr, stack_inside_iff htop h.aligned hlow hr hcount hfits rfl]
    constructor
    · rintro ⟨hneed, hheap⟩
      exact ⟨by omega, hneed, by omega⟩
    · intro hroom
      exact ⟨hroom.stack, Nat.le_sub_of_add_le hroom.heap⟩
  · -- `end_brk` is above the mapping
    constructor
    · rintro ⟨⟨hstrings, -⟩, -⟩
      have hfirst := hstrings 0 (by dsimp only; omega)
      dsimp only at hfirst
      generalize x.reserved = r at *
      simp only [wsub] at hfirst
      omega
    · intro hroom
      exact absurd (Nat.le_trans (Nat.le_add_left _ _) hroom.heap) hr

/-- With a stack of 4096 bytes there is room for the arguments of `pairExec`. -/
theorem flat_stack_covered_pair : pairExec.StackCovered pairLayout pairExec.mem :=
  (flat_stack_covered pairExec pairExec_layout pairExec.mem).mpr
    ⟨by decide, by decide +kernel, by decide +kernel⟩

/-- An image with `stack_size` 0 and one argument. -/
def zeroStackExec : FlatExec :=
  ramExec [64, 68, 72, 0, 68, 0] (List.replicate 68 0) [[97]] (by decide) (by decide)

/-- `end_brk` is 23 bytes below the end of the mapping, the stack pointer 32. -/
theorem flat_stack_uncovered : ∃ l, zeroStackExec.layout = .ok l ∧
    ¬ ∃ m, zeroStackExec.StackCovered l m := by
  refine ⟨⟨0xC0100000, 0xC0100048, 0xC0100000, 4096, [⟨0xC0100000, 4096⟩]⟩, rfl, ?_⟩
  rintro ⟨m, hstack, -⟩
  rw [← Prog.wp_true, FlatInput.putArgs, wp_copyTables (by decide) (by decide) (by decide +kernel)
    rfl] at hstack
  have hlow := (hstack.2 0 (by decide)).1
  exact absurd hlow (by decide +kernel)

end LinuxStm32.Fs
