import LinuxStm32.Fs.BinfmtFlat

/-!
# When the loader of flat executables stays in its mappings

`fs/binfmt_flat.c` combines lengths and offsets of the header by wrapping sums and checks only
the targets of relocations. `FlatInput.Ok` is the condition on a header, a file, the arguments
and the addresses of the mappings under which no access leaves the mappings; the theorem is an
equivalence.
-/

namespace LinuxStm32.Fs

open Base

/-! ### The condition -/

/-- First of the mapped bytes around the data: the text may end where the data's mapping starts. -/
def Layout.lo (l : Layout) : Nat :=
  ((l.mappings.find? (·.stop = l.memp)).map (·.base)).getD l.memp

/-- End of the mapped bytes around the data: the text may start where the data's mapping ends. -/
def Layout.hi (l : Layout) : Nat :=
  ((l.mappings.find? (·.base = l.memp + l.mempSize)).map (·.stop)).getD (l.memp + l.mempSize)

/-- A GOT word that the scan passes. -/
def GotPasses (lib : FlatImage) (w : Nat) : Prop :=
  w ≠ 0xffffffff ∧ (w = 0 ∨ calcReloc lib w ≠ relocFailed)

/-- A GOT word for which the image is refused. -/
def GotRefused (lib : FlatImage) (w : Nat) : Prop :=
  w ≠ 0xffffffff ∧ w ≠ 0 ∧ calcReloc lib w = relocFailed

/-- A GOT word relocated in place. -/
def gotWord (lib : FlatImage) (rp : Nat) (m : Mem) : Mem :=
  if m.word rp = 0 then m else m.write rp 4 (Mem.bytesOf (calcReloc lib (m.word rp)))

/-- The first `k` GOT words relocated. -/
def gotMem (lib : FlatImage) : Nat → Nat → Mem → Mem
  | 0, _, m => m
  | k + 1, rp, m => gotMem lib k (wadd rp 4) (gotWord lib rp m)

/-- Each entry of the relocation table up to the first that is refused lies in `P`, and so does
the pointer it names; `Q` is required when none is refused. -/
def EntriesOk (P : Nat → Prop) (lib : FlatImage) (gotpic : Bool) (reloc : Nat) (Q : Prop) :
    Nat → Nat → Mem → Prop
  | 0, _, _ => Q
  | n + 1, i, m =>
    let a := wadd reloc (wmul i 4)
    let rp := calcReloc lib (ntohl (m.word a))
    let addr := calcReloc lib (if gotpic then m.word rp else ntohl (m.word rp))
    Access.Inside P ⟨a, 4⟩ ∧ (rp ≠ relocFailed → Access.Inside P ⟨rp, 4⟩ ∧
      (m.word rp = 0 → EntriesOk P lib gotpic reloc Q n (i + 1) m) ∧
      (m.word rp ≠ 0 → addr ≠ relocFailed →
        EntriesOk P lib gotpic reloc Q n (i + 1) (m.write rp 4 (Mem.bytesOf addr))))

/-- Each entry of a table of the old format lies in `P`, and so does the pointer it names. -/
def OldEntriesOk (P : Nat → Prop) (lib : FlatImage) (reloc : Nat) (Q : Prop) :
    Nat → Nat → Mem → Prop
  | 0, _, _ => Q
  | n + 1, i, m =>
    let a := wadd reloc (wmul i 4)
    let r := ntohl (m.word a)
    let ptr := wadd lib.startData (oldOffset r)
    Access.Inside P ⟨a, 4⟩ ∧
      (oldBase lib r = none → OldEntriesOk P lib reloc Q n (i + 1) m) ∧
      (∀ base, oldBase lib r = some base → Access.Inside P ⟨ptr, 4⟩ ∧
        OldEntriesOk P lib reloc Q n (i + 1)
          (m.write ptr 4 (Mem.bytesOf (wadd (m.word ptr) base))))

namespace FlatInput

variable (x : FlatInput)

/-- The bytes of text that are read. -/
def textBytes : Nat := min x.textLen x.file.length

/-- The bytes of data and relocation entries that are read. -/
def dataBytes : Nat := min (wadd x.dataLen x.relocBytes) (x.file.length - x.hdr.dataStart)

/-- Memory once text and data have been read. -/
def imageMem (l : Layout) : Mem :=
  Mem.write (if x.ram then x.mem.write l.textpos x.textBytes fun k => x.file.getD (0 + k) 0
    else x.mem) l.datapos x.dataBytes fun k => x.file.getD (x.hdr.dataStart + k) 0

/-- What the rest of the loader needs: the end of the data, the word before the data and the
arguments with their table, which are put below the end of the mapping. -/
structure TailOk (l : Layout) : Prop where
  clear : l.lo ≤ wadd l.datapos x.dataLen ∧ wadd l.datapos x.dataLen ≤ l.memp + l.mempSize
  slot : l.lo + 4 ≤ l.datapos ∧ l.datapos ≤ l.hi
  args : 0 < x.p ∧ l.lo + (x.strings.length + 4 * (x.argc + x.envc) + 24) ≤ l.memp + l.mempSize

/-- What the relocation entries need. -/
def RelocsOk (l : Layout) (m : Mem) : Prop :=
  if oldFlatVersion < x.hdr.rev then
    EntriesOk x.Mapped (x.image l) x.gotpic (x.reloc l) (x.TailOk l) x.relocs 0 m
  else OldEntriesOk x.Mapped (x.image l) (x.reloc l) (x.TailOk l) x.relocs 0 m

/-- The GOT ends, or the image is refused for one of its words, before the mapped bytes end. -/
def GotOk (l : Layout) (m : Mem) : Prop :=
  ∃ k, l.lo ≤ l.datapos ∧ l.datapos + 4 * (k + 1) ≤ l.hi ∧
    (∀ j < k, GotPasses (x.image l) (m.word (wadd l.datapos (4 * j)))) ∧
    (m.word (wadd l.datapos (4 * k)) = 0xffffffff ∧
        x.RelocsOk l (gotMem (x.image l) k l.datapos m) ∨
      GotRefused (x.image l) (m.word (wadd l.datapos (4 * k))))

/-- What is read fits: the text in its mapping, the data between its start and the end of the
mapped bytes; and the relocations and the rest of the loader have what they need. -/
def Ok : Prop := ∀ l, x.layout = .ok l →
  (x.ram = true → x.readText = none → x.textBytes ≤ l.mempSize) ∧
  ((x.ram = true → x.readText = none) → x.readData = none →
    (x.dataBytes = 0 ∨ l.lo ≤ l.datapos ∧ l.datapos + x.dataBytes ≤ l.hi) ∧
    if x.gotpic then x.GotOk l (x.imageMem l) else x.RelocsOk l (x.imageMem l))

end FlatInput
/-! ### Mappings -/

theorem mapped_pos {r a : Nat} (h : mapped r = .ok a) : 0 < a := by
  simp only [mapped] at h
  split at h
  · cases h
  · split at h
    · cases h
    · cases h
      omega

theorem layout_cases {x : FlatInput} {l : Layout} (h : x.layout = .ok l) :
    (∃ a, mapped x.textMap = .ok a ∧ x.ram = true ∧
      l = ⟨a, align (wadd (wadd a x.hdr.dataStart) 4) 8, a, x.mapLen, [⟨a, x.mapLen⟩]⟩) ∨
    (∃ a b, mapped x.textMap = .ok a ∧ mapped x.dataMap = .ok b ∧ x.ram = false ∧
      l = ⟨a, align (wadd b 4) 8, b, x.mapLen, [⟨a, pagesOf x.textLen⟩, ⟨b, x.mapLen⟩]⟩) := by
  simp only [FlatInput.layout, bind, Except.bind, pure, Except.pure] at h
  split at h
  · cases h
  · split at h
    · next hram =>
      split at h
      · cases h
      · next a ha =>
        cases h
        exact .inl ⟨a, ha, hram, rfl⟩
    · next hrom =>
      split at h
      · cases h
      · next a ha =>
        split at h
        · cases h
        · next b hb =>
          cases h
          exact .inr ⟨a, b, ha, hb, Bool.not_eq_true _ ▸ hrom, rfl⟩

/-- What the proofs use of a layout. -/
structure Layout.Good (x : FlatInput) (l : Layout) : Prop where
  span : Span x.Mapped 8 l.lo l.hi
  lo_le : l.lo ≤ l.memp
  le_hi : l.memp + l.mempSize ≤ l.hi
  page : 4096 ≤ l.lo
  size : 4096 ≤ l.mempSize
  lo_aligned : l.lo % 8 = 0
  end_aligned : (l.memp + l.mempSize) % 8 = 0
  data_aligned : l.datapos % 8 = 0
  data_lt : l.datapos < 4294967296
  near : (∀ b, x.Mapped b → l.lo ≤ b ∧ b < l.hi) ∨ l.datapos = l.memp + 8
  text : x.ram = true → l.textpos = l.lo ∧ l.hi = l.lo + l.mempSize

private theorem mapped_iff {x : FlatInput} {l : Layout} (h : x.layout = .ok l) (a : Nat) :
    x.Mapped a ↔ ∃ b ∈ l.mappings, b.Has a := by
  constructor
  · rintro ⟨l', hl', hb⟩
    rw [h] at hl'
    cases hl'
    exact hb
  · intro hb
    exact ⟨l, h, hb⟩

theorem mapLen_aligned (x : FlatInput) : x.mapLen % 4096 = 0 := by
  simp only [FlatInput.mapLen, pageAlign, align, alignDown]
  split
  · exact Nat.mul_mod_left _ _
  · exact Nat.mul_mod_left _ _

theorem pagesOf_mapLen (x : FlatInput) : pagesOf x.mapLen = x.mapLen := by
  have h := mapLen_aligned x
  simp only [pagesOf]
  omega

theorem align_eight (y : Nat) : align y 8 % 8 = 0 ∧ align y 8 < 4294967296 := by
  simp only [align, alignDown]
  have := wadd_lt y (8 - 1)
  omega

private theorem good_ram {x : FlatExec} {l : Layout} {a : Nat} (h : x.layout = .ok l)
    (ha : mapped x.textMap = .ok a) (hram : x.ram = true)
    (hl : l = ⟨a, align (wadd (wadd a x.hdr.dataStart) 4) 8, a, x.mapLen, [⟨a, x.mapLen⟩]⟩) :
    l.Good x.toFlatInput := by
  have hpl := x.textPlaced a ha
  rw [if_pos hram, Placed, pagesOf_mapLen] at hpl
  obtain ⟨hal, hpos, htop⟩ := hpl
  have hlen := mapLen_aligned x.toFlatInput
  have hapos := mapped_pos ha
  have hd := align_eight (wadd (wadd a x.hdr.dataStart) 4)
  generalize align (wadd (wadd a x.hdr.dataStart) 4) 8 = d at hd hl
  generalize x.mapLen = n at *
  have hm : ∀ b, x.Mapped b ↔ a ≤ b ∧ b < a + n := fun b => by
    rw [mapped_iff h, hl]
    simp [Block.Has, Block.stop]
  have hne : ¬ n = 0 := by omega
  have hmemp : l.memp = a := by rw [hl]
  have hsize : l.mempSize = n := by rw [hl]
  have htext : l.textpos = a := by rw [hl]
  have hdata : l.datapos = d := by rw [hl]
  have hmaps : l.mappings = [⟨a, n⟩] := by rw [hl]
  have hlo : l.lo = a := by
    rw [Layout.lo, hmaps, hmemp, List.find?_cons_of_neg, List.find?_nil, Option.map_none,
      Option.getD_none]
    simp [Block.stop, hne]
  have hhi : l.hi = a + n := by
    rw [Layout.hi, hmaps, hmemp, hsize, List.find?_cons_of_neg, List.find?_nil, Option.map_none,
      Option.getD_none]
    simp [hne]
  rw [← hdata] at hd
  refine ⟨?_, by omega, by omega, by omega, by omega, by omega, by omega, hd.1, hd.2, .inl ?_, ?_⟩
  · rw [hlo, hhi]
    refine ⟨by omega, by omega, fun b h1 h2 => (hm b).mpr ⟨h1, h2⟩, by omega, by omega, ?_, ?_⟩
    · intro b hb _ hmb
      have := (hm b).mp hmb
      omega
    · intro hmb
      have := (hm _).mp hmb
      omega
  · intro b hb
    rw [hlo, hhi]
    exact (hm b).mp hb
  · intro _
    omega

private theorem good_rom {x : FlatExec} {l : Layout} {a b : Nat} (h : x.layout = .ok l)
    (ha : mapped x.textMap = .ok a) (hb : mapped x.dataMap = .ok b) (hrom : x.ram = false)
    (hl : l = ⟨a, align (wadd b 4) 8, b, x.mapLen, [⟨a, pagesOf x.textLen⟩, ⟨b, x.mapLen⟩]⟩) :
    l.Good x.toFlatInput := by
  have hpa := x.textPlaced a ha
  rw [if_neg (by rw [hrom]; decide), Placed] at hpa
  have hpb := x.dataPlaced b hb hrom
  rw [Placed, pagesOf_mapLen] at hpb
  obtain ⟨hala, hposa, htopa⟩ := hpa
  obtain ⟨halb, hposb, htopb⟩ := hpb
  have hapart := x.apart a b ha hb hrom
  have hlen := mapLen_aligned x.toFlatInput
  have hapos := mapped_pos ha
  have hbpos := mapped_pos hb
  have hT : pagesOf x.textLen % 4096 = 0 ∧ 0 < pagesOf x.textLen := by
    simp only [pagesOf]
    omega
  have hdata : align (wadd b 4) 8 = b + 8 := by
    simp only [align, alignDown, wadd]
    omega
  rw [hdata] at hl
  generalize pagesOf x.textLen = t at *
  generalize x.mapLen = n at *
  have hm : ∀ c, x.Mapped c ↔ (a ≤ c ∧ c < a + t) ∨ (b ≤ c ∧ c < b + n) := fun c => by
    rw [mapped_iff h, hl]
    simp [Block.Has, Block.stop]
  have hne : ¬ n = 0 := by omega
  have hmemp : l.memp = b := by rw [hl]
  have hsize : l.mempSize = n := by rw [hl]
  have hdatapos : l.datapos = b + 8 := by rw [hl]
  have hmaps : l.mappings = [⟨a, t⟩, ⟨b, n⟩] := by rw [hl]
  have hlo : l.lo = if a + t = b then a else b := by
    rw [Layout.lo, hmaps, hmemp]
    by_cases hc : a + t = b
    · rw [if_pos hc, List.find?_cons_of_pos (by simp [Block.stop, hc]), Option.map_some,
        Option.getD_some]
    · rw [if_neg hc, List.find?_cons_of_neg (by simp [Block.stop, hc]),
        List.find?_cons_of_neg (by simp [Block.stop, hne]), List.find?_nil, Option.map_none,
        Option.getD_none]
  have hhi : l.hi = if a = b + n then a + t else b + n := by
    rw [Layout.hi, hmaps, hmemp, hsize]
    by_cases hc : a = b + n
    · rw [if_pos hc, List.find?_cons_of_pos (by simp [hc]), Option.map_some, Option.getD_some,
        Block.stop]
    · rw [if_neg hc, List.find?_cons_of_neg (by simp [hc]),
        List.find?_cons_of_neg (by simp [hne]), List.find?_nil, Option.map_none,
        Option.getD_none]
  have hlo' : l.lo ≤ b ∧ l.lo % 4096 = 0 ∧ 0 < l.lo := by
    rw [hlo]
    split <;> omega
  have hhi' : b + n ≤ l.hi := by
    rw [hhi]
    split <;> omega
  refine ⟨?_, by omega, by omega, by omega, by omega, by omega, by omega, by omega, by omega,
    .inr (by omega), ?_⟩
  · rw [hlo, hhi]
    refine ⟨?_, ?_, ?_, by decide, ?_, ?_, ?_⟩
    · split <;> split <;> omega
    · split <;> omega
    · intro c h1 h2
      rw [hm]
      split at h1 <;> split at h2 <;> omega
    · split <;> omega
    · intro c h1 h2 hmc
      rw [hm] at hmc
      split at h1 <;> split at h2 <;> omega
    · rw [hm]
      split <;> omega
  · intro hram
    rw [hrom] at hram
    cases hram

theorem good_of_layout {x : FlatExec} {l : Layout} (h : x.layout = .ok l) :
    l.Good x.toFlatInput := by
  rcases layout_cases h with ⟨a, ha, hram, hl⟩ | ⟨a, b, ha, hb, hrom, hl⟩
  · exact good_ram h ha hram hl
  · exact good_rom h ha hb hrom hl

/-! ### The argument table -/

private theorem skipString_of_lt {m : Mem} {n p k : Nat} (hk : k < n) (hp : p < 4294967296)
    (hz : m (wadd p k) = 0) : ∃ p', skipString m n p = some p' ∧ p' < 4294967296 := by
  induction n generalizing p k with
  | zero => exact absurd hk (Nat.not_lt_zero _)
  | succ n ih =>
    rw [skipString]
    split
    · exact ⟨_, rfl, wadd_lt _ _⟩
    · next hne =>
      cases k with
      | zero =>
        rw [wadd_of_lt (by omega), Nat.add_zero] at hz
        exact absurd hz hne
      | succ k =>
        refine ih (k := k) (by omega) (wadd_lt _ _) ?_
        have he : wadd (wadd p 1) k = wadd p (k + 1) := by simp only [wadd]; omega
        rw [he]
        exact hz

/-- A zero byte anywhere ends the walk. -/
private theorem skipString_some {m : Mem} {n p z : Nat} (hn : 4294967296 ≤ n)
    (hp : p < 4294967296) (hzlt : z < 4294967296) (hz : m z = 0) :
    ∃ p', skipString m n p = some p' ∧ p' < 4294967296 := by
  have he : wadd p (wsub z p) = z := by simp only [wadd, wsub]; omega
  exact skipString_of_lt (Nat.lt_of_lt_of_le (wsub_lt z p) hn) hp (he.symm ▸ hz)

section Tables

variable {P : Nat → Prop} {z fuel : Nat} {R : Prop}

/-- A store that does not reach the byte `z` keeps it. -/
private theorem zero_write {m : Mem} {a n : Nat} (f : Nat → UInt8) (hz : m z = 0)
    (h : n ≤ wsub z a) : m.write a n f z = 0 := by
  rw [Mem.write_of_le m f h]
  exact hz

/-- With a zero byte past the pointers, the loop writes all of them. -/
private theorem wp_pointerLoop {Q : Nat → Mem → Prop} (hfuel : 4294967296 ≤ fuel)
    (hzlt : z < 4294967296)
    (hQ : ∀ p m, p < 4294967296 → m z = 0 → (Q p m ↔ R)) {n p argv : Nat} {m : Mem}
    (hp : p < 4294967296) (ha : argv < 4294967296) (hz : m z = 0) (hroom : 4 * n ≤ wsub z argv) :
    Prog.wp P (pointerLoop fuel n p argv) Q m ↔ Access.Inside P ⟨argv, 4 * n⟩ ∧ R := by
  induction n generalizing p argv m with
  | zero =>
    rw [pointerLoop, Prog.wp_pure, hQ p m hp hz]
    exact ⟨fun h => ⟨Access.inside_zero _, h⟩, fun h => h.2⟩
  | succ n ih =>
    have hz' : (m.write argv 4 (Mem.bytesOf p)) z = 0 := zero_write _ hz (by omega)
    obtain ⟨p', hp', hlt⟩ := skipString_some hfuel hp hzlt hz'
    have hroom' : 4 * n ≤ wsub z (wadd argv 4) := by
      have := wsub_lt z argv
      simp only [wadd, wsub] at *
      omega
    rw [pointerLoop, Prog.wp_bind, Prog.wp_store32, Prog.wp_bind, Prog.wp_inspect, hp',
      ih hlt (wadd_lt _ _) hz' hroom', Nat.mul_succ, Nat.add_comm (4 * n) 4, Access.inside_add,
      and_assoc]

/-- The table of pointers is a run of `argc + envc + 5` words. -/
private theorem wp_createFlatTables {pp argc envc sp : Nat} {m : Mem}
    (hfuel : 4294967296 ≤ fuel)
    (hsp : sp = alignDown (wsub pp (wmul (envc + argc + 5) 4)) 8) (hzlt : z < 4294967296)
    (hpp : pp < 4294967296) (hz : m z = 0) (hsize : argc + envc < 1000000)
    (hroom : 4 * (argc + envc + 5) ≤ wsub z sp) :
    Prog.wp P (createFlatTables fuel pp argc envc) (fun _ _ => True) m ↔
      Access.Inside P ⟨sp, 4 * (argc + envc + 5)⟩ := by
  have hsplt : sp < 4294967296 := by
    have := wsub_lt pp (wmul (envc + argc + 5) 4)
    rw [hsp, alignDown]
    omega
  -- every store is at an offset `d` from `sp`
  have hoff : ∀ d n, d + n ≤ 4 * (argc + envc + 5) → n ≤ wsub z (wadd sp d) := by
    intro d n hd
    have := wsub_lt z sp
    simp only [wadd, wsub] at *
    omega
  have h0 : wadd sp 0 = sp := by simp only [wadd]; omega
  have hargv : wadd (wadd sp 12) (wmul argc 4) = wadd sp (12 + 4 * argc) := by
    simp only [wadd, wmul]
    omega
  have henvp : wadd (wadd sp 12) (wmul (argc + 1) 4) = wadd sp (16 + 4 * argc) := by
    simp only [wadd, wmul]
    omega
  have hlast : wadd (wadd sp (16 + 4 * argc)) (wmul envc 4) =
      wadd sp (16 + 4 * argc + 4 * envc) := by
    simp only [wadd, wmul]
    omega
  have hsplit : 4 * (argc + envc + 5) = 4 + (4 + (4 + (4 * argc + (4 + (4 * envc + 4))))) := by
    omega
  have hsum : ∀ d n, wadd (wadd sp d) n = wadd sp (d + n) := by
    intro d n
    simp only [wadd]
    omega
  have hz1 := zero_write (Mem.bytesOf (wadd sp (16 + 4 * argc))) hz (hoff 8 4 (by omega))
  have hz2 := zero_write (Mem.bytesOf (wadd sp 12)) hz1 (hoff 4 4 (by omega))
  have hz3 := zero_write (Mem.bytesOf argc) hz2 (h0 ▸ hoff 0 4 (by omega))
  rw [createFlatTables, ← hsp]
  simp only [hargv, henvp, hlast, Prog.wp_bind, Prog.wp_store32, Prog.wp_pure, and_true]
  rw [wp_pointerLoop (R := Access.Inside P ⟨wadd sp (12 + 4 * argc), 4⟩ ∧
      Access.Inside P ⟨wadd sp (16 + 4 * argc), 4 * envc⟩ ∧
      Access.Inside P ⟨wadd sp (16 + 4 * argc + 4 * envc), 4⟩) hfuel hzlt ?_ hpp (wadd_lt _ _) hz3
      (hoff 12 _ (by omega))]
  · rw [hsplit, Access.inside_add, Access.inside_add, Access.inside_add, Access.inside_add,
      Access.inside_add, Access.inside_add]
    simp only [hsum, Nat.reduceAdd]
    constructor
    · rintro ⟨h8, h4, h0', h12, ha, he, hl⟩
      exact ⟨h0', h4, h8, h12, ha, by rw [Nat.add_right_comm 12]; exact he,
        by rw [Nat.add_right_comm 12]; exact hl⟩
    · rintro ⟨h0', h4, h8, h12, ha, he, hl⟩
      rw [Nat.add_right_comm 12] at he hl
      exact ⟨h8, h4, h0', h12, ha, he, hl⟩
  · intro p m hp hzm
    rw [wp_pointerLoop (R := Access.Inside P ⟨wadd sp (16 + 4 * argc + 4 * envc), 4⟩) hfuel hzlt
      (fun _ _ _ _ => Iff.rfl) hp (wadd_lt _ _)
      (zero_write _ hzm (hoff (12 + 4 * argc) 4 (by omega))) (hoff _ _ (by omega))]

end Tables

/-! ### The strings -/

private theorem length_le_flatMap (l : List (List UInt8)) :
    l.length ≤ (l.flatMap (· ++ [0])).length := by
  induction l with
  | nil => exact Nat.le_refl _
  | cons s l ih =>
    rw [List.flatMap_cons, List.length_append, List.length_append, List.length_cons,
      List.length_singleton]
    omega

theorem strings_eq (x : FlatInput) : ∃ s, x.strings = s ++ [0] := by
  refine ⟨(x.argv ++ x.envp).flatMap (· ++ [0]) ++ x.filename, ?_⟩
  rw [FlatInput.strings, List.flatMap_append, List.flatMap_singleton, List.append_assoc]

theorem count_lt_strings (x : FlatInput) : x.argc + x.envc + 1 ≤ x.strings.length := by
  have h := length_le_flatMap (x.argv ++ x.envp ++ [x.filename])
  rw [List.length_append, List.length_append, List.length_singleton] at h
  exact h

private theorem argByte_last (x : FlatExec) : x.argByte (topOfArgs - 1) = 0 := by
  obtain ⟨s, hs⟩ := strings_eq x.toFlatInput
  have hfits := x.fits
  have hidx : topOfArgs - 1 - x.p = s.length := by
    simp only [FlatInput.p, hs, List.length_append, List.length_singleton, topOfArgs] at hfits ⊢
    omega
  rw [FlatInput.argByte, if_pos (by decide), hidx, hs, List.getD_eq_getElem?_getD,
    List.getElem?_concat_length]
  rfl

section Strings

variable {P : Nat → Prop} {z : Nat} {R : Prop} {x : FlatInput} {Q : Nat → Mem → Prop}

/-- Past its first byte the copy of the strings keeps a byte `z` above them. -/
private theorem wp_copyArgs (hp : 0 < x.p) {n fuel i dst : Nat} {m : Mem} (hfuel : n < fuel)
    (hi : i + 1 = x.p + n) (hilt : i < 4294967296) (hdst : dst < 4294967296)
    (hn : n < 4294967296) (hzlt : z < 4294967296) (hz : m z = 0)
    (hout : n ≤ wsub z (wsub dst n)) (hQ : ∀ m, m z = 0 → (Q (wsub dst n) m ↔ R)) :
    Prog.wp P (x.copyArgs fuel i dst) Q m ↔ Access.Inside P ⟨wsub dst n, n⟩ ∧ R := by
  induction n generalizing fuel i dst m with
  | zero =>
    obtain ⟨f, rfl⟩ : ∃ f, fuel = f + 1 := ⟨fuel - 1, by omega⟩
    have h0 : wsub dst 0 = dst := by simp only [wsub]; omega
    rw [h0] at hQ ⊢
    rw [FlatInput.copyArgs, if_neg (by omega), Prog.wp_pure, hQ m hz]
    exact ⟨fun h => ⟨Access.inside_zero _, h⟩, fun h => h.2⟩
  | succ n ih =>
    obtain ⟨f, rfl⟩ : ∃ f, fuel = f + 1 := ⟨fuel - 1, by omega⟩
    have hi' : wsub i 1 = i - 1 := wsub_of_le hilt (by omega)
    have hd : wsub (wsub dst 1) n = wsub dst (n + 1) := by simp only [wsub]; omega
    have htop : wadd (wsub dst (n + 1)) n = wsub dst 1 := by simp only [wsub, wadd]; omega
    have hz' : (m.write (wsub dst 1) 1 fun _ => x.argByte i) z = 0 := by
      refine zero_write _ hz ?_
      simp only [wsub] at *
      omega
    rw [FlatInput.copyArgs, if_pos (by omega), Prog.wp_bind, Prog.wp_fill,
      ih (by omega) (by omega) (by omega) (wsub_lt _ _) (by omega) hz' (by rw [hd]; omega)
        (by rw [hd]; exact hQ), hd, Access.inside_add, htop]
    exact and_left_comm.trans and_assoc.symm

/-- With argument pages that are full to the first byte the copy goes on below them. -/
private theorem copyArgs_endless (hp : x.p = 0) {n i dst : Nat} {m : Mem}
    (h : Prog.wp P (x.copyArgs n i dst) Q m) {k : Nat} (hk : k < n) (hlt : k + 1 < 4294967296)
    (hdst : dst < 4294967296) : P (wsub dst (k + 1)) := by
  induction n generalizing i dst m k with
  | zero => exact absurd hk (Nat.not_lt_zero _)
  | succ n ih =>
    rw [FlatInput.copyArgs, if_pos (by omega), Prog.wp_bind, Prog.wp_fill] at h
    cases k with
    | zero =>
      have hb := h.1 0 Nat.zero_lt_one
      have he : wadd (wsub dst 1) 0 = wsub dst 1 := by simp only [wsub, wadd]; omega
      dsimp only at hb
      rw [he] at hb
      exact hb
    | succ k =>
      have hb := ih h.2 (k := k) (by omega) (by omega) (wsub_lt _ _)
      have he : wsub (wsub dst 1) (k + 1) = wsub dst (k + 1 + 1) := by simp only [wsub]; omega
      rw [he] at hb
      exact hb

end Strings

/-! ### The rest of the loader -/

private theorem slot_iff {x : FlatInput} {l : Layout} (g : l.Good x) :
    Access.Inside x.Mapped ⟨wsub l.datapos 4, 4⟩ ↔ l.lo + 4 ≤ l.datapos ∧ l.datapos ≤ l.hi := by
  have hlt := g.data_lt
  have hal := g.data_aligned
  have htop := g.span.top
  have hle := g.lo_le
  have hhi := g.le_hi
  have hsize := g.size
  constructor
  · intro h
    rcases g.near with hP | hd
    · have h0 := hP _ (h 0 (by dsimp only; omega))
      have h3 := hP _ (h 3 (by dsimp only; omega))
      simp only [wadd, wsub] at h0 h3
      omega
    · omega
  · rintro ⟨h1, h2⟩
    rw [wsub_of_le hlt (by omega)]
    exact (g.span.inside_iff (by omega) (by omega)).mpr (by omega)

/-- The strings and the table below them are inside when there is room for them. -/
private theorem args_iff {P : Nat → Prop} {lo hi e len c sp : Nat} (hs : Span P 8 lo hi)
    (hlo : lo % 8 = 0) (he : lo + 4096 ≤ e) (he' : e ≤ hi) (hlen : c + 1 ≤ len)
    (hlen' : len ≤ 131068)
    (hsp : sp = alignDown (wsub (wsub (e - 4) len) (4 * (c + 5))) 8) :
    Access.Inside P ⟨wsub (e - 4) len, len⟩ ∧ Access.Inside P ⟨sp, 4 * (c + 5)⟩ ↔
      lo + (len + 4 * c + 24) ≤ e := by
  have htop := hs.top
  have hroom := hs.room
  rw [hs.inside_iff_end (by omega) (by omega) (by omega)]
  constructor
  · rintro ⟨h1, h2⟩
    apply Nat.le_of_not_lt
    intro hlt
    -- the eighth byte below the mapped bytes would be in the table
    have hb := h2 (wsub (lo - 8) sp) (by
      rw [hsp]
      simp only [alignDown, wsub]
      omega)
    have hx : wadd sp (wsub (lo - 8) sp) = lo - 8 := by
      rw [hsp]
      simp only [alignDown, wsub, wadd]
      omega
    dsimp only at hb
    rw [hx] at hb
    exact hs.below (lo - 8) (by omega) (by omega) hb
  · intro h
    have hpp : wsub (e - 4) len = e - 4 - len := wsub_of_le (by omega) (by omega)
    rw [hpp, wsub_of_le (by omega) (by omega), alignDown] at hsp
    exact ⟨by omega, (hs.inside_iff (by omega) (by omega)).mpr (by omega)⟩

private theorem wsub_cases {a b : Nat} (ha : a < 4294967296) (hb : b ≤ 4294967296) :
    wsub a b < 4294967296 ∧ (wsub a b + b = a ∨ wsub a b + b = a + 4294967296) := by
  simp only [wsub]
  omega

/-- The last byte of the strings is not in the table. -/
private theorem table_below {e len n : Nat} (he : e < 4294967296) (hlen : 0 < len)
    (hn : n + len < 1000000) :
    n ≤ wsub (wsub e 1) (alignDown (wsub (wsub e len) n) 8) := by
  have h1 := wsub_cases (b := 1) he (by decide)
  have h2 := wsub_cases (b := len) he (by omega)
  have h3 := wsub_cases (b := n) h2.1 (by omega)
  generalize wsub e 1 = z at *
  generalize wsub e len = w at *
  generalize wsub w n = u at *
  have h4 := wsub_cases (b := alignDown u 8) h1.1 (by rw [alignDown]; omega)
  rw [alignDown] at *
  omega

/-- Strings that leave the first byte of the argument pages free are copied below `dst`, and the
table is put below them. -/
theorem wp_copyTables {P : Nat → Prop} {x : FlatExec} (hpos : 0 < x.p) {fuel dst len : Nat}
    (hfuel : 4294967296 < fuel) (hdst : dst < 4294967296) (hlen : x.strings.length = len)
    (m : Mem) {v : Nat} :
    Prog.wp P (do
        let p ← x.copyArgs fuel (topOfArgs - 1) dst
        let sp ← createFlatTables fuel p x.argc x.envc
        return (v, sp)) (fun _ _ => True) m ↔
      Access.Inside P ⟨wsub dst len, len⟩ ∧
        Access.Inside P ⟨alignDown (wsub (wsub dst len) (4 * (x.argc + x.envc + 5))) 8,
          4 * (x.argc + x.envc + 5)⟩ := by
  have hfits := x.fits
  have hcount := count_lt_strings x.toFlatInput
  have hlast := argByte_last x
  rw [topOfArgs] at hfits
  have hp : x.p = 131068 - x.strings.length := rfl
  rw [hlen] at hfits hcount hp
  rw [Prog.wp_bind]
  obtain ⟨f, rfl⟩ : ∃ f, fuel = f + 1 := ⟨fuel - 1, by omega⟩
  have hi : wsub (topOfArgs - 1) 1 = 131066 := by decide
  have hstart : wsub (wsub dst 1) (len - 1) = wsub dst len := by
    simp only [wsub]
    omega
  have hz : (m.write (wsub dst 1) 1 fun _ => x.argByte (topOfArgs - 1)) (wsub dst 1) = 0 := by
    have h1 : wsub (wsub dst 1) (wsub dst 1) < 1 := by
      simp only [wsub]
      omega
    rw [Mem.write, if_pos h1, hlast]
  have htable : ∀ m' : Mem, m' (wsub dst 1) = 0 →
      (Prog.wp P (do
          let sp ← createFlatTables (f + 1) (wsub dst len) x.argc x.envc
          return (v, sp)) (fun _ _ => True) m' ↔
        Access.Inside P ⟨alignDown (wsub (wsub dst len) (4 * (x.argc + x.envc + 5))) 8,
          4 * (x.argc + x.envc + 5)⟩) := by
    intro m' hz'
    have hmul : wmul (x.envc + x.argc + 5) 4 = 4 * (x.argc + x.envc + 5) := by
      simp only [wmul]
      omega
    rw [Prog.wp_bind]
    simp only [Prog.wp_pure]
    refine wp_createFlatTables (by omega) (by rw [hmul]) (wsub_lt _ _) (wsub_lt _ _) hz'
      (by omega) (table_below hdst (by omega) (by omega))
  rw [FlatInput.copyArgs, if_pos (by rw [topOfArgs]; omega), Prog.wp_bind, Prog.wp_fill,
    wp_copyArgs (n := len - 1) hpos (by omega) (by rw [hi]; omega) (by rw [hi]; decide)
      (wsub_lt _ _) (by omega) (wsub_lt _ _) hz (by simp only [wsub]; omega)
      (by rw [hstart]; exact htable), hstart]
  have hone : len = (len - 1) + 1 := by omega
  have htopByte : wadd (wsub dst len) (len - 1) = wsub dst 1 := by
    simp only [wsub, wadd]
    omega
  have hsplit : Access.Inside P ⟨wsub dst len, len⟩ ↔
      Access.Inside P ⟨wsub dst len, len - 1⟩ ∧ Access.Inside P ⟨wsub dst 1, 1⟩ := by
    rw [← htopByte, ← Access.inside_add, ← hone]
  rw [hsplit]
  exact and_left_comm.trans and_assoc.symm

/-- With argument pages full to the first byte the copy reaches every address. -/
theorem copyTables_endless {P : Nat → Prop} {x : FlatInput} (hp : x.p = 0) {fuel dst : Nat}
    (hfuel : 4294967296 < fuel) (hdst : dst < 4294967296) {m : Mem} {v : Nat}
    (h : Prog.wp P (do
        let p ← x.copyArgs fuel (topOfArgs - 1) dst
        let sp ← createFlatTables fuel p x.argc x.envc
        return (v, sp)) (fun _ _ => True) m) {a : Nat} (ha : a < 4294967296) (hne : a ≠ dst) :
    P a := by
  rw [Prog.wp_bind] at h
  have hb := copyArgs_endless hp h (k := wsub dst (a + 1)) (by have := wsub_lt dst (a + 1); omega)
    (by simp only [wsub]; omega) hdst
  have hx : wsub dst (wsub dst (a + 1) + 1) = a := by
    simp only [wsub]
    omega
  rw [hx] at hb
  exact hb

/-- The loop over the strings and the table. -/
private theorem wp_args {x : FlatExec} {l : Layout} (g : l.Good x.toFlatInput) {fuel : Nat}
    (hfuel : 4294967296 < fuel) (m : Mem) {v : Nat} :
    Prog.wp x.Mapped (do
        let p ← x.copyArgs fuel (topOfArgs - 1) (l.memp + l.mempSize - 4)
        let sp ← createFlatTables fuel p x.argc x.envc
        return (v, sp)) (fun _ _ => True) m ↔
      0 < x.p ∧
        l.lo + (x.strings.length + 4 * (x.argc + x.envc) + 24) ≤ l.memp + l.mempSize := by
  have htop := g.span.top
  have hle := g.lo_le
  have hhi := g.le_hi
  have hsize := g.size
  have hfits := x.fits
  have hcount := count_lt_strings x.toFlatInput
  rw [topOfArgs] at hfits
  generalize hlen : x.strings.length = len at *
  generalize he : l.memp + l.mempSize = e at *
  rcases Nat.eq_zero_or_pos x.p with h0 | hpos
  · -- the endless loop writes the byte after the mapped ones
    constructor
    · intro h
      exact absurd (copyTables_endless h0 hfuel (by omega) h htop (by omega)) g.span.above
    · intro h
      omega
  · rw [wp_copyTables hpos hfuel (by omega) hlen, args_iff g.span g.lo_aligned (by omega) hhi
      (c := x.argc + x.envc) (by omega) hfits rfl]
    exact ⟨fun h => ⟨hpos, h⟩, fun h => h.2⟩

/-! ### Relocation -/

section Relocation

variable {P : Nat → Prop} {lib : FlatImage} {m : Mem} {Q : Mem → Prop}

/-- The scan of `n` words: it ends at one of them, or passes them all. -/
private def GotRun (P : Nat → Prop) (lib : FlatImage) (Q : Mem → Prop) (n rp : Nat) (m : Mem) :
    Prop :=
  (∃ k < n, Access.Inside P ⟨rp, 4 * (k + 1)⟩ ∧
    (∀ j < k, GotPasses lib (m.word (wadd rp (4 * j)))) ∧
    (m.word (wadd rp (4 * k)) = 0xffffffff ∧ Q (gotMem lib k rp m) ∨
      GotRefused lib (m.word (wadd rp (4 * k))))) ∨
  (Access.Inside P ⟨rp, 4 * n⟩ ∧ ∀ j < n, GotPasses lib (m.word (wadd rp (4 * j))))

private theorem GotPasses.not_end {w : Nat} (h : GotPasses lib w) :
    w ≠ 0xffffffff ∧ ¬ GotRefused lib w := by
  refine ⟨h.1, fun hr => ?_⟩
  rcases h.2 with h0 | hc
  · exact hr.2.1 h0
  · exact hc hr.2.2

private theorem wadd_zero_mul {rp : Nat} (hrp : rp < 4294967296) : wadd rp (4 * 0) = rp := by
  simp only [wadd]
  omega

/-- A word that ends the scan ends it at once. -/
private theorem gotRun_of_end {n rp : Nat} (hrp : rp < 4294967296)
    (h : ¬ GotPasses lib (m.word rp)) :
    GotRun P lib Q (n + 1) rp m ↔ Access.Inside P ⟨rp, 4⟩ ∧
      (m.word rp = 0xffffffff ∧ Q m ∨ GotRefused lib (m.word rp)) := by
  have h0 := wadd_zero_mul hrp
  constructor
  · rintro (⟨k, _, hin, hpass, hend⟩ | ⟨_, hpass⟩)
    · cases k with
      | zero =>
        rw [h0] at hend
        exact ⟨hin, hend⟩
      | succ k =>
        have hp := hpass 0 (Nat.succ_pos k)
        rw [h0] at hp
        exact absurd hp h
    · have hp := hpass 0 (Nat.succ_pos n)
      rw [h0] at hp
      exact absurd hp h
  · rintro ⟨hin, hend⟩
    refine .inl ⟨0, Nat.succ_pos n, hin, fun j hj => absurd hj (Nat.not_lt_zero j), ?_⟩
    rw [h0]
    exact hend

/-- A word that the scan passes is relocated, and the scan goes on behind it. -/
private theorem gotRun_of_passes {n rp : Nat} (hrp : rp < 4294967296)
    (hn : 4 * (n + 1) ≤ 4294967296) (h : GotPasses lib (m.word rp)) :
    GotRun P lib Q (n + 1) rp m ↔
      Access.Inside P ⟨rp, 4⟩ ∧ GotRun P lib Q n (wadd rp 4) (gotWord lib rp m) := by
  have h0 := wadd_zero_mul hrp
  have haddr : ∀ j, wadd (wadd rp 4) (4 * j) = wadd rp (4 * (j + 1)) := by
    intro j
    simp only [wadd]
    omega
  have hword : ∀ j < n, (gotWord lib rp m).word (wadd (wadd rp 4) (4 * j)) =
      m.word (wadd rp (4 * (j + 1))) := by
    intro j hj
    rw [haddr, gotWord]
    split
    · rfl
    · exact Mem.word_write_of_le m _ hrp (by omega) (by omega)
  have hlen : ∀ k, 4 * (k + 1) = 4 + 4 * k := by
    intro k
    omega
  constructor
  · rintro (⟨k, hk, hin, hpass, hend⟩ | ⟨hin, hpass⟩)
    · cases k with
      | zero =>
        rw [h0] at hend
        exact absurd hend (by
          rintro (⟨hw, _⟩ | hr)
          · exact h.not_end.1 hw
          · exact h.not_end.2 hr)
      | succ k =>
        rw [hlen (k + 1), Access.inside_add] at hin
        refine ⟨hin.1, .inl ⟨k, by omega, hin.2, fun j hj => ?_, ?_⟩⟩
        · rw [hword j (by omega)]
          exact hpass (j + 1) (by omega)
        · rw [hword k (by omega)]
          exact hend
    · rw [hlen n, Access.inside_add] at hin
      refine ⟨hin.1, .inr ⟨hin.2, fun j hj => ?_⟩⟩
      rw [hword j hj]
      exact hpass (j + 1) (by omega)
  · rintro ⟨hin, ⟨k, hk, hin', hpass, hend⟩ | ⟨hin', hpass⟩⟩
    · refine .inl ⟨k + 1, by omega, ?_, fun j hj => ?_, ?_⟩
      · rw [hlen (k + 1), Access.inside_add]
        exact ⟨hin, hin'⟩
      · cases j with
        | zero =>
          rw [h0]
          exact h
        | succ j =>
          have hp := hpass j (by omega)
          rw [hword j (by omega)] at hp
          exact hp
      · rw [hword k hk] at hend
        exact hend
    · refine .inr ⟨?_, fun j hj => ?_⟩
      · rw [hlen n, Access.inside_add]
        exact ⟨hin, hin'⟩
      · cases j with
        | zero =>
          rw [h0]
          exact h
        | succ j =>
          have hp := hpass j (by omega)
          rw [hword j (by omega)] at hp
          exact hp

private theorem wp_gotLoop {n rp : Nat} (hrp : rp < 4294967296) (hn : 4 * n ≤ 4294967296) :
    Prog.wp P (gotLoop lib n rp) (fun _ => Q) m ↔ GotRun P lib Q n rp m := by
  induction n generalizing rp m with
  | zero =>
    rw [gotLoop, Prog.wp_fail]
    exact ⟨fun _ => .inr ⟨Access.inside_zero _, fun j hj => absurd hj (Nat.not_lt_zero j)⟩,
      fun _ => trivial⟩
  | succ n ih =>
    rw [gotLoop, Prog.wp_bind, Prog.wp_load32]
    by_cases hend : m.word rp = 0xffffffff
    · rw [if_pos hend, Prog.wp_pure, gotRun_of_end hrp (fun h => h.1 hend)]
      constructor
      · rintro ⟨hin, hq⟩
        exact ⟨hin, .inl ⟨hend, hq⟩⟩
      · rintro ⟨hin, ⟨_, hq⟩ | hr⟩
        · exact ⟨hin, hq⟩
        · exact absurd hend hr.1
    rw [if_neg hend]
    by_cases hzero : m.word rp = 0
    · rw [if_pos hzero, ih (wadd_lt _ _) (by omega),
        gotRun_of_passes hrp hn ⟨hend, .inl hzero⟩, gotWord, if_pos hzero]
    rw [if_neg hzero]
    by_cases hfail : calcReloc lib (m.word rp) = relocFailed
    · rw [if_pos hfail, Prog.wp_fail,
        gotRun_of_end hrp (fun h => h.2.elim hzero fun hc => hc hfail)]
      exact ⟨fun h => ⟨h.1, .inr ⟨hend, hzero, hfail⟩⟩, fun h => ⟨h.1, trivial⟩⟩
    · rw [if_neg hfail, Prog.wp_bind, Prog.wp_store32, ih (wadd_lt _ _) (by omega),
        gotRun_of_passes hrp hn ⟨hend, .inr hfail⟩, gotWord, if_neg hzero]
      exact ⟨fun h => h.2, fun h => ⟨h.1, h⟩⟩

private theorem wp_relocEntries {gotpic : Bool} {reloc n i : Nat} {R : Prop}
    (hQ : ∀ m, Q m ↔ R) :
    Prog.wp P (forRelocs (relocEntry lib gotpic) reloc n i) (fun _ => Q) m ↔
      EntriesOk P lib gotpic reloc R n i m := by
  induction n generalizing i m with
  | zero =>
    rw [forRelocs, Prog.wp_pure, hQ]
    exact Iff.rfl
  | succ n ih =>
    rw [forRelocs, Prog.wp_bind, relocEntry, Prog.wp_bind, Prog.wp_load32, EntriesOk]
    refine and_congr_right fun _ => ?_
    dsimp only
    generalize calcReloc lib (ntohl (m.word (wadd reloc (wmul i 4)))) = rp
    by_cases hrp : rp = relocFailed
    · rw [if_pos hrp, Prog.wp_fail]
      exact ⟨fun _ h => absurd hrp h, fun _ => trivial⟩
    rw [if_neg hrp, Prog.wp_bind, Prog.wp_load32]
    by_cases hv : m.word rp = 0
    · rw [if_pos hv, Prog.wp_pure, ih]
      exact ⟨fun h _ => ⟨h.1, fun _ => h.2, fun hne => absurd hv hne⟩,
        fun h => ⟨(h hrp).1, (h hrp).2.1 hv⟩⟩
    rw [if_neg hv]
    by_cases ha : calcReloc lib (if gotpic then m.word rp else ntohl (m.word rp)) = relocFailed
    · rw [if_pos ha, Prog.wp_fail]
      exact ⟨fun h _ => ⟨h.1, fun h0 => absurd h0 hv, fun _ hne => absurd ha hne⟩,
        fun h => ⟨(h hrp).1, trivial⟩⟩
    · rw [if_neg ha, Prog.wp_store32, ih]
      exact ⟨fun h _ => ⟨h.1, fun h0 => absurd h0 hv, fun _ _ => h.2.2⟩,
        fun h => ⟨(h hrp).1, (h hrp).1, (h hrp).2.2 hv ha⟩⟩

private theorem wp_oldEntries {reloc n i : Nat} {R : Prop} (hQ : ∀ m, Q m ↔ R)
    :
    Prog.wp P (forRelocs (oldReloc lib) reloc n i) (fun _ => Q) m ↔
      OldEntriesOk P lib reloc R n i m := by
  induction n generalizing i m with
  | zero =>
    rw [forRelocs, Prog.wp_pure, hQ]
    exact Iff.rfl
  | succ n ih =>
    rw [forRelocs, Prog.wp_bind, oldReloc, Prog.wp_bind, Prog.wp_load32, OldEntriesOk]
    refine and_congr_right fun _ => ?_
    dsimp only
    generalize ntohl (m.word (wadd reloc (wmul i 4))) = r
    cases hb : oldBase lib r with
    | none =>
      rw [Prog.wp_pure, ih]
      constructor
      · intro h
        exact ⟨fun _ => h, fun s hs => absurd hs.symm (Option.some_ne_none s)⟩
      · rintro ⟨h, _⟩
        exact h rfl
    | some base =>
      dsimp only
      rw [Prog.wp_bind, Prog.wp_load32, Prog.wp_store32, ih]
      constructor
      · rintro ⟨h1, _, h2⟩
        refine ⟨?_, ?_⟩
        · intro hs
          cases hs
        · intro b hs
          cases hs
          exact ⟨h1, h2⟩
      · rintro ⟨_, h⟩
        exact ⟨(h base rfl).1, (h base rfl).1, (h base rfl).2⟩

end Relocation

/-! ### The loader -/

theorem clear_len {s stack e : Nat} (bss : Nat) (hs : s < 4294967296)
    (hk : stack < 4294967296) (he : e < 4294967296) :
    wadd (wadd bss (wsub (wsub e stack) (wadd s bss))) stack = wsub e s := by
  simp only [wadd, wsub]
  omega

section Loader

variable {x : FlatInput} {l : Layout} {Q : Mem → Prop}

/-- After the relocations the loader needs what `TailOk` says. -/
private theorem wp_tail {x : FlatExec} (g : l.Good x.toFlatInput) {fuel : Nat}
    (hfuel : 4294967296 < fuel) (m : Mem) :
    Prog.wp x.Mapped (x.clear l) (fun _ => Prog.wp x.Mapped (x.startImage fuel (x.image l))
      fun _ _ => True) m ↔ x.TailOk l := by
  have htop := g.span.top
  have hle := g.lo_le
  have hhi := g.le_hi
  have hsize := g.size
  have hend := g.end_aligned
  have he : wadd l.memp l.mempSize = l.memp + l.mempSize := wadd_of_lt (by omega)
  have hstack : x.stackLen < 4294967296 := wadd_lt _ _
  have hlen := clear_len x.bssLen (wadd_lt l.datapos x.dataLen) hstack
    (e := l.memp + l.mempSize) (by omega)
  have hclear : Access.Inside x.Mapped ⟨wadd l.datapos x.dataLen,
      wsub (l.memp + l.mempSize) (wadd l.datapos x.dataLen)⟩ ↔
      l.lo ≤ wadd l.datapos x.dataLen ∧ wadd l.datapos x.dataLen ≤ l.memp + l.mempSize := by
    have hs := wadd_lt l.datapos x.dataLen
    generalize wadd l.datapos x.dataLen = s at *
    have hback : s = wsub (l.memp + l.mempSize) (wsub (l.memp + l.mempSize) s) := by
      simp only [wsub]
      omega
    have hiff := g.span.inside_iff_end (by omega) hhi (wsub_lt (l.memp + l.mempSize) s)
    rw [← hback] at hiff
    rw [hiff]
    simp only [wsub]
    omega
  have hp : x.stackTop (x.image l) = l.memp + l.mempSize - 4 := by
    rw [FlatInput.stackTop, FlatInput.image, he]
    simp only [wadd, wsub, alignDown]
    omega
  rw [FlatInput.clear, Prog.wp_fill, FlatInput.startImage, Prog.wp_bind, Prog.wp_store32,
    FlatInput.putArgs, hp, wp_args g hfuel, he]
  simp only [FlatInput.image, FlatInput.bssLen] at hlen ⊢
  rw [hlen, hclear, slot_iff g]
  exact ⟨fun h => ⟨h.1, h.2.1, h.2.2⟩, fun h => ⟨h.clear, h.slot, h.args⟩⟩

private theorem data_iff (g : l.Good x) (n : Nat) :
    Access.Inside x.Mapped ⟨l.datapos, n⟩ ↔
      n = 0 ∨ l.lo ≤ l.datapos ∧ l.datapos + n ≤ l.hi := by
  have hlt := g.data_lt
  have hle := g.lo_le
  have hhi := g.le_hi
  have hsize := g.size
  rcases Nat.eq_zero_or_pos n with rfl | hn
  · exact ⟨fun _ => .inl rfl, fun _ => Access.inside_zero _⟩
  constructor
  · intro h
    have hin : l.lo ≤ l.datapos ∧ l.datapos < l.hi := by
      rcases g.near with hP | hd
      · have h0 := hP _ (h 0 hn)
        dsimp only at h0
        rw [wadd_of_lt hlt] at h0
        exact h0
      · omega
    exact .inr ⟨hin.1, (g.span.inside_iff hin.1 hin.2).mp h⟩
  · rintro (h0 | ⟨h1, h2⟩)
    · omega
    · exact (g.span.inside_iff h1 (by omega)).mpr h2

private theorem wp_readFile {P : Nat → Prop} {err : Option Nat}
    {dst pos count : Nat} {m : Mem} :
    Prog.wp P (x.readFile err dst pos count) (fun _ => Q) m ↔
      (err = none → Access.Inside P ⟨dst, min count (x.file.length - pos)⟩ ∧
        (isErrValue (min count (x.file.length - pos)) = false →
          Q (m.write dst (min count (x.file.length - pos)) fun k => x.file.getD (pos + k) 0))) := by
  rw [FlatInput.readFile.eq_def]
  cases err with
  | some e =>
    dsimp only
    rw [Prog.wp_fail, true_iff]
    intro h
    cases h
  | none =>
    dsimp only
    generalize min count (x.file.length - pos) = n
    rw [Prog.wp_bind, Prog.wp_fill]
    have herr : ∀ m', Prog.wp P (if isErrValue n = true then
        Prog.fail (.error ((n : Int) - 4294967296)) else pure () : Prog FlatStop Unit)
        (fun _ => Q) m' ↔ (isErrValue n = false → Q m') := by
      intro m'
      cases isErrValue n with
      | true =>
        rw [if_pos rfl, Prog.wp_fail, true_iff]
        intro h
        cases h
      | false =>
        rw [if_neg (by decide), Prog.wp_pure]
        exact ⟨fun h _ => h, fun h => h rfl⟩
    rw [herr]
    exact ⟨fun h _ => h, fun h => h rfl⟩

private theorem wp_entries (hQ : ∀ m, Q m ↔ x.TailOk l) (m : Mem) :
    Prog.wp x.Mapped (if oldFlatVersion < x.hdr.rev then
        forRelocs (relocEntry (x.image l) x.gotpic) (x.reloc l) x.relocs 0
      else forRelocs (oldReloc (x.image l)) (x.reloc l) x.relocs 0) (fun _ => Q) m ↔
      x.RelocsOk l m := by
  rw [FlatInput.RelocsOk]
  split
  · exact wp_relocEntries hQ
  · exact wp_oldEntries hQ

private theorem wp_got (g : l.Good x) (m : Mem) :
    Prog.wp x.Mapped (gotLoop (x.image l) 1073741824 l.datapos) (fun _ => x.RelocsOk l) m ↔
      x.GotOk l m := by
  have htop := g.span.top
  rw [wp_gotLoop g.data_lt (by decide)]
  constructor
  · rintro (⟨k, _, hin, hpass, hend⟩ | ⟨hin, _⟩)
    · rcases (data_iff g _).mp hin with h0 | ⟨h1, h2⟩
      · omega
      · exact ⟨k, h1, h2, hpass, hend⟩
    · exact absurd hin (g.span.not_inside_all (by decide) g.data_lt)
  · rintro ⟨k, h1, h2, hpass, hend⟩
    exact .inl ⟨k, by omega, (data_iff g _).mpr (.inr ⟨h1, h2⟩), hpass, hend⟩

private theorem wp_relocate (g : l.Good x) (hQ : ∀ m, Q m ↔ x.TailOk l) (m : Mem) :
    Prog.wp x.Mapped (x.relocate l) (fun _ => Q) m ↔
      if x.gotpic then x.GotOk l m else x.RelocsOk l m := by
  rw [FlatInput.relocate]
  by_cases hgot : x.gotpic = true
  · rw [if_pos hgot, if_pos hgot, Prog.wp_bind, ← wp_got g m]
    exact Prog.wp_congr fun _ m' => wp_entries hQ m'
  · rw [if_neg hgot, if_neg hgot]
    exact wp_entries hQ m

private theorem isErrValue_of_le (g : l.Good x) {n : Nat}
    (h : l.lo + n ≤ l.hi) : isErrValue n = false := by
  have htop := g.span.top
  have hpage := g.page
  rw [isErrValue, decide_eq_false_iff_not]
  omega

/-- The reads fit, and what follows them needs `Q`. -/
private theorem wp_readImage (g : l.Good x) :
    Prog.wp x.Mapped (x.readImage l) (fun _ => Q) x.mem ↔
      (x.ram = true → x.readText = none → x.textBytes ≤ l.mempSize) ∧
      ((x.ram = true → x.readText = none) → x.readData = none →
        (x.dataBytes = 0 ∨ l.lo ≤ l.datapos ∧ l.datapos + x.dataBytes ≤ l.hi) ∧
          Q (x.imageMem l)) := by
  have hdata : ∀ m, Prog.wp x.Mapped
      (x.readFile x.readData l.datapos x.hdr.dataStart (wadd x.dataLen x.relocBytes))
      (fun _ => Q) m ↔ (x.readData = none →
        (x.dataBytes = 0 ∨ l.lo ≤ l.datapos ∧ l.datapos + x.dataBytes ≤ l.hi) ∧
          Q (m.write l.datapos x.dataBytes fun k => x.file.getD (x.hdr.dataStart + k) 0)) := by
    intro m
    rw [wp_readFile, ← FlatInput.dataBytes]
    refine forall_congr' fun _ => ?_
    rw [data_iff g]
    refine and_congr_right fun hin => ?_
    have herr : isErrValue x.dataBytes = false := by
      refine isErrValue_of_le g ?_
      have := g.span.lt
      omega
    exact ⟨fun h => h herr, fun h _ => h⟩
  rw [FlatInput.readImage, FlatInput.imageMem]
  by_cases hram : x.ram = true
  · obtain ⟨htext, hhi⟩ := g.text hram
    have hlt := g.span.lt
    rw [if_pos hram, if_pos hram, Prog.wp_bind, wp_readFile, Nat.sub_zero, ← FlatInput.textBytes]
    simp only [hram, forall_const, hdata]
    have hin : Access.Inside x.Mapped ⟨l.textpos, x.textBytes⟩ ↔ x.textBytes ≤ l.mempSize := by
      rw [htext, g.span.inside_iff (Nat.le_refl _) hlt]
      omega
    rw [hin]
    constructor
    · intro h
      refine ⟨fun hr => (h hr).1, fun hr => (h hr).2 (isErrValue_of_le g ?_)⟩
      have := (h hr).1
      omega
    · rintro ⟨h1, h2⟩ hr
      exact ⟨h1 hr, fun _ => h2 hr⟩
  · rw [if_neg hram, if_neg hram]
    simp only [hram, Bool.false_eq_true, false_implies, forall_const, true_and]
    exact hdata x.mem

end Loader

/-- The loader stays in its mappings exactly on the inputs that satisfy the condition. -/
theorem flat_load_safe (x : FlatExec) : x.Safe ↔ x.Ok := by
  rw [FlatInput.Safe, ← Prog.wp_true, FlatInput.loadFlatBinary, Prog.wp_bind,
    FlatInput.loadFlatFile.eq_def]
  cases hl : x.layout with
  | error e =>
    rw [Prog.wp_fail, true_iff]
    intro l h
    rw [hl] at h
    cases h
  | ok l =>
    have g := good_of_layout hl
    have htail : ∀ m, Prog.wp x.Mapped (do x.clear l; return x.image l)
        (fun lib => Prog.wp x.Mapped (x.startImage 4294967297 lib) fun _ _ => True) m ↔
        x.TailOk l := by
      intro m
      rw [Prog.wp_bind]
      simp only [Prog.wp_pure]
      exact wp_tail g (by decide) m
    dsimp only
    rw [Prog.wp_bind]
    simp only [Prog.wp_bind (x.relocate l)]
    rw [Prog.wp_congr fun _ m => wp_relocate g htail m, wp_readImage g]
    constructor
    · intro h l' hl'
      rw [hl] at hl'
      cases hl'
      exact h
    · intro h
      exact h l hl

/-- An image of text and four bytes of data without relocations, loaded into RAM. -/
def plainExec : FlatExec :=
  ramExec [64, 68, 72, 4096, 68, 0] (List.replicate 68 0) [[97]] (by decide) (by decide)

theorem flat_load_safe_plain : plainExec.Safe := by
  rw [flat_load_safe]
  intro l hl
  have he : plainExec.layout =
      .ok ⟨0xC0100000, 0xC0100048, 0xC0100000, 8192, [⟨0xC0100000, 8192⟩]⟩ := by rfl
  rw [he] at hl
  cases hl
  have htext : plainExec.textBytes = 64 := by decide +kernel
  have hdata : plainExec.dataBytes = 4 := by decide +kernel
  refine ⟨fun _ _ => ?_, fun _ _ => ⟨?_, ?_⟩⟩
  · rw [htext]
    decide
  · rw [hdata]
    decide +kernel
  rw [if_neg (by decide +kernel), FlatInput.RelocsOk, if_pos (by decide +kernel)]
  exact ⟨by decide +kernel, by decide +kernel, by decide +kernel⟩

/-- An image of the current format whose bss ends before the header does: any offset passes for
one inside the program. Its one relocation entry names an address far from its mapping. -/
def strayExec : FlatExec :=
  ramExec [64, 64, 0, 4096, 64, 1] (List.replicate 64 0 ++ [0x10, 0, 0, 0]) [] (by decide)
    (by decide)

/-- The loader relocates a word 256 MiB behind the mapping it has made. -/
theorem flat_load_strays : ¬ strayExec.Safe := by
  intro h
  have hmem : (⟨0xD0100048, 4⟩ : Access) ∈
      (strayExec.loadFlatBinary strayExec.mem).accesses := by
    refine Prog.mem_bind_of_left ?_
    decide +kernel
  have he : strayExec.layout =
      .ok ⟨0xC0100000, 0xC0100048, 0xC0100000, 8192, [⟨0xC0100000, 8192⟩]⟩ := by rfl
  obtain ⟨b, hb, hhas⟩ := (mapped_iff he _).mp (h _ hmem 0 (by decide))
  rw [List.mem_singleton.mp hb] at hhas
  exact absurd hhas (by decide)

end LinuxStm32.Fs
