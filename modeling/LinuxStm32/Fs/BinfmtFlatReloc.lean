import LinuxStm32.Base.WordMem
import LinuxStm32.Fs.BinfmtFlatSafety

/-!
# What relocation makes of a flat executable

`fs/binfmt_flat.c:311–378, 603–722, 761–824` for an image of version 4 without a GOT. A byte of
the file at offset `o` is loaded to `place o`; each entry of the relocation table names, by its
offset behind the header, a big-endian word that becomes an address. The table lies behind the
data, where `load_flat_file` clears memory when it is done.
-/

namespace LinuxStm32.Fs

open Base

namespace FlatInput

variable (x : FlatInput)

/-- A byte of the file. -/
def fileByte (o : Nat) : UInt8 := x.file.getD o 0

/-- The entries of the relocation table. -/
def relocTable : List Nat :=
  (List.range x.hdr.relocCount).map fun i => be32 x.fileByte (x.hdr.dataEnd + 4 * i)

/-- Where a byte of the file is loaded. -/
def place (l : Layout) (o : Nat) : Nat :=
  if o < x.textLen then l.textpos + o else l.datapos + (o - x.textLen)

/-- What a relocated word of the file becomes. -/
def newWord (l : Layout) (v : Nat) : Nat :=
  if v = 0 then 0
  else if v < x.textLen - 64 then wadd (l.textpos + 64) v
  else wadd l.datapos (v - (x.textLen - 64))

/-- An image of version 4 whose parts are in order in a file that is long enough, a mapping that
holds data and relocation table, and entries that name words of text or data, each once. A text
that is not read is the file's, mapped. -/
structure Relocatable (l : Layout) : Prop where
  rev : x.hdr.rev = flatVersion
  got : x.gotpic = false
  text : 64 ≤ x.hdr.dataStart
  data : x.hdr.dataStart ≤ x.hdr.dataEnd
  bss : x.hdr.dataEnd ≤ x.hdr.bssEnd
  reloc : x.hdr.relocStart = x.hdr.dataEnd
  file : x.hdr.dataEnd + 4 * x.hdr.relocCount ≤ x.file.length
  start : l.memp ≤ l.datapos
  room : l.datapos + (x.hdr.dataEnd - x.hdr.dataStart) + 4 * x.hdr.relocCount ≤
    l.memp + l.mempSize
  entries : ∀ r ∈ x.relocTable, 64 + r + 4 ≤ x.hdr.dataStart ∨
    x.hdr.dataStart ≤ 64 + r ∧ 64 + r + 4 ≤ x.hdr.dataEnd
  apart : x.relocTable.Pairwise Mem.Apart
  mapped : x.ram = false → ∀ o < x.textLen, x.mem (l.textpos + o) = x.fileByte o

/-- The memory of a relocated image. -/
structure Relocated (l : Layout) (m : Mem) : Prop where
  word : ∀ r ∈ x.relocTable,
    m.word (x.place l (64 + r)) = x.newWord l (be32 x.fileByte (64 + r))
  kept : ∀ o < x.hdr.dataEnd, (∀ r ∈ x.relocTable, ¬ (64 + r ≤ o ∧ o < 64 + r + 4)) →
    m (x.place l o) = x.fileByte o
  zero : ∀ a, l.datapos + (x.hdr.dataEnd - x.hdr.dataStart) ≤ a → a < l.memp + l.mempSize →
    m a = 0

/-- The same exec of a file whose relocation table is in another order. The header is read from
the first bytes of the file, which may reach into the table. -/
structure Reorders (y x : FlatInput) : Prop where
  same : y = { x with buf := y.buf, file := y.file, stray := y.stray }
  hdr : flatHdr y.buf = flatHdr x.buf
  long : y.file.length = x.file.length
  bytes : ∀ o < x.hdr.dataEnd, y.fileByte o = x.fileByte o
  table : y.relocTable.Perm x.relocTable

end FlatInput

/-! ### One function at a time -/

/-- What becomes of a relocated word: a zero is kept. -/
def relocated (lib : FlatImage) (w : Nat) : Option Nat :=
  if w = 0 then none else some (calcReloc lib (ntohl w))

/-- The entry is accepted, with the word that it names at `rp`. -/
def Accepted (lib : FlatImage) (m : Mem) (r rp : Nat) : Prop :=
  calcReloc lib r ≠ relocFailed ∧
    (m.word rp ≠ 0 → calcReloc lib (ntohl (m.word rp)) ≠ relocFailed)

section Entries

variable {lib : FlatImage} {Q : Unit → Mem → Prop} {m : Mem}

theorem twp_relocEntry {a r : Nat} (hr : ntohl (m.word a) = r) :
    Prog.twp (relocEntry lib false a) Q m ↔
      Accepted lib m r (calcReloc lib r) ∧
        Q () (m.rewriteWord (relocated lib) (calcReloc lib r)) := by
  rw [relocEntry, Prog.twp_bind, Prog.twp_load32, hr, Accepted]
  dsimp only
  generalize calcReloc lib r = rp
  by_cases hrp : rp = relocFailed
  · rw [if_pos hrp, Prog.twp_fail]
    exact ⟨False.elim, fun h => h.1.1 hrp⟩
  · rw [if_neg hrp, Prog.twp_bind, Prog.twp_load32]
    by_cases hv : m.word rp = 0
    · have hkeep : relocated lib (m.word rp) = none := if_pos hv
      rw [if_pos hv, Prog.twp_pure, Mem.rewriteWord_none _ hkeep]
      exact ⟨fun h => ⟨⟨hrp, fun hne => absurd hv hne⟩, h⟩, fun h => h.2⟩
    · have hnew : relocated lib (m.word rp) = some _ := if_neg hv
      rw [if_neg hv, Mem.rewriteWord_some _ hnew]
      simp only [Bool.false_eq_true, if_false]
      by_cases haddr : calcReloc lib (ntohl (m.word rp)) = relocFailed
      · rw [if_pos haddr, Prog.twp_fail]
        exact ⟨False.elim, fun h => h.1.2 hv haddr⟩
      · rw [if_neg haddr, Prog.twp_store32]
        exact ⟨fun h => ⟨⟨hrp, fun _ => haddr⟩, h⟩, fun h => h.2⟩

/-- The loop over a table whose entries name words that are apart from each other and from the
table returns when each entry is accepted, and has rewritten each of the words. -/
theorem twp_forRelocs {loc : Nat → Nat} {reloc i : Nat} {rs : List Nat}
    (htop : reloc + 4 * (i + rs.length) ≤ 4294967296)
    (htable : ∀ j (hj : j < rs.length), ntohl (m.word (reloc + 4 * (i + j))) = rs[j])
    (hcalc : ∀ r ∈ rs, calcReloc lib r ≠ relocFailed → calcReloc lib r = loc r)
    (hlt : ∀ r ∈ rs, loc r + 4 ≤ 4294967296)
    (hout : ∀ r ∈ rs, ∀ j < rs.length, Mem.Apart (loc r) (reloc + 4 * (i + j)))
    (hap : (rs.map loc).Pairwise Mem.Apart) :
    Prog.twp (forRelocs (relocEntry lib false) reloc rs.length i) Q m ↔
      (∀ r ∈ rs, Accepted lib m r (loc r)) ∧
        Q () (m.rewriteWords (relocated lib) (rs.map loc)) := by
  induction rs generalizing i m with
  | nil =>
    rw [List.length_nil, forRelocs, Prog.twp_pure]
    exact ⟨fun h => ⟨fun r hr => absurd hr List.not_mem_nil, h⟩, fun h => h.2⟩
  | cons r rs ih =>
    rw [List.length_cons] at htop
    rw [List.map_cons, List.pairwise_cons] at hap
    have hentry : wadd reloc (wmul i 4) = reloc + 4 * i := by
      simp only [wadd, wmul]
      omega
    have hword : ntohl (m.word (wadd reloc (wmul i 4))) = r := by
      rw [hentry]
      exact htable 0 (Nat.zero_lt_succ _)
    rw [List.length_cons, forRelocs, Prog.twp_bind, twp_relocEntry hword, List.map_cons,
      Mem.rewriteWords_cons]
    by_cases hfail : calcReloc lib r = relocFailed
    · constructor
      · intro h
        exact absurd hfail h.1.1
      · intro h
        exact absurd hfail (h.1 r List.mem_cons_self).1
    · have hrlt := hlt r List.mem_cons_self
      rw [hcalc r List.mem_cons_self hfail]
      -- the rest of the table and the words it names are as before
      have hkeep (b : Nat) (hb : b + 4 ≤ 4294967296) (h : Mem.Apart (loc r) b) :
          (m.rewriteWord (relocated lib) (loc r)).word b = m.word b :=
        Mem.word_rewriteWord_apart _ hrlt hb h
      have hrest := ih (m := m.rewriteWord (relocated lib) (loc r)) (i := i + 1) (by omega)
        (fun j hj => by
          have happ := hout r List.mem_cons_self (j + 1) (Nat.succ_lt_succ hj)
          rw [Nat.add_assoc, Nat.add_comm 1 j, hkeep _ (by omega) happ]
          exact htable (j + 1) (Nat.succ_lt_succ hj))
        (fun s hs => hcalc s (List.mem_cons_of_mem r hs))
        (fun s hs => hlt s (List.mem_cons_of_mem r hs))
        (fun s hs j hj => by
          rw [Nat.add_assoc, Nat.add_comm 1 j]
          exact hout s (List.mem_cons_of_mem r hs) (j + 1) (Nat.succ_lt_succ hj))
        hap.2
      have haccept (s : Nat) (hs : s ∈ rs) :
          Accepted lib (m.rewriteWord (relocated lib) (loc r)) s (loc s) ↔
            Accepted lib m s (loc s) := by
        rw [Accepted, Accepted, hkeep (loc s) (hlt s (List.mem_cons_of_mem r hs))
          (hap.1 (loc s) (List.mem_map_of_mem hs))]
      rw [hrest, List.forall_mem_cons, and_assoc]
      apply and_congr_right
      intro _
      apply and_congr_left
      intro _
      exact forall₂_congr haccept

end Entries

/-! ### Loading -/

theorem be32_lt (buf : Nat → UInt8) (o : Nat) : be32 buf o < 4294967296 := by
  have h0 := (buf o).toNat_lt
  have h1 := (buf (o + 1)).toNat_lt
  have h2 := (buf (o + 2)).toNat_lt
  have h3 := (buf (o + 3)).toNat_lt
  unfold be32
  omega

/-- A word of memory whose bytes are those of a buffer, in the order of the file. -/
theorem ntohl_word {m : Mem} {buf : Nat → UInt8} {a o : Nat} (ha : a < 4294967296)
    (h : ∀ k < 4, m (wadd a k) = buf (o + k)) : ntohl (m.word a) = be32 buf o := by
  have h0 := h 0 (by decide)
  rw [wadd_zero ha, Nat.add_zero] at h0
  have hb0 := (buf o).toNat_lt
  have hb1 := (buf (o + 1)).toNat_lt
  have hb2 := (buf (o + 2)).toNat_lt
  have hb3 := (buf (o + 3)).toNat_lt
  rw [Mem.word, h0, h 1 (by decide), h 2 (by decide), h 3 (by decide), ntohl, be32]
  omega

/-- A word is zero in both orders. -/
theorem ntohl_eq_zero {w : Nat} (hw : w < 4294967296) : ntohl w = 0 ↔ w = 0 := by
  unfold ntohl
  omega

section Load

variable {x : FlatInput} {l : Layout} {Q : Unit → Mem → Prop} {m : Mem}

theorem twp_readFile {err : Option Nat} {dst pos count n : Nat}
    (hn : min count (x.file.length - pos) = n) :
    Prog.twp (x.readFile err dst pos count) Q m ↔
      (err = none ∧ isErrValue n = false) ∧
        Q () (m.write dst n fun k => x.file.getD (pos + k) 0) := by
  rw [FlatInput.readFile.eq_def, hn]
  cases err with
  | some e =>
    rw [Prog.twp_fail]
    exact ⟨False.elim, fun h => absurd h.1.1 (Option.some_ne_none e)⟩
  | none =>
    dsimp only
    rw [Prog.twp_bind, Prog.twp_fill]
    cases isErrValue n with
    | true =>
      rw [if_pos rfl, Prog.twp_fail]
      exact ⟨False.elim, fun h => absurd h.1.2 (by decide)⟩
    | false =>
      rw [if_neg (by decide), Prog.twp_pure]
      exact ⟨fun h => ⟨⟨rfl, rfl⟩, h⟩, fun h => h.2⟩

/-- The reads of the file return no error. -/
def FlatInput.ReadsOk (x : FlatInput) : Prop :=
  (x.ram = true → x.readText = none ∧ isErrValue x.textBytes = false) ∧
    x.readData = none ∧ isErrValue x.dataBytes = false

theorem FlatInput.ReadsOk.text (h : x.ReadsOk) (hram : x.ram = true) :
    isErrValue x.textBytes = false :=
  (h.1 hram).2

theorem twp_readImage :
    Prog.twp (x.readImage l) Q x.mem ↔ x.ReadsOk ∧ Q () (x.imageMem l) := by
  rw [FlatInput.readImage, FlatInput.ReadsOk, FlatInput.imageMem]
  by_cases hram : x.ram = true
  · rw [if_pos hram, if_pos hram, Prog.twp_bind, twp_readFile rfl, twp_readFile rfl,
      FlatInput.textBytes, FlatInput.dataBytes, Nat.sub_zero]
    constructor
    · intro h
      exact ⟨⟨fun _ => h.1, h.2.1⟩, h.2.2⟩
    · intro h
      exact ⟨h.1.1 hram, h.1.2, h.2⟩
  · rw [if_neg hram, if_neg hram]
    have hdata := @twp_readFile x Q x.mem x.readData l.datapos x.hdr.dataStart
      (wadd x.dataLen x.relocBytes) _ rfl
    rw [FlatInput.dataBytes]
    apply hdata.trans
    constructor
    · intro h
      exact ⟨⟨fun hyes => absurd hyes hram, h.1⟩, h.2⟩
    · intro h
      exact ⟨h.1.2, h.2⟩

/-- Text and data lie in memory, apart from each other. -/
structure FlatInput.Fits (x : FlatInput) (l : Layout) : Prop where
  text : l.textpos + x.textLen < 4294967296
  top : l.memp + l.mempSize < 4294967296
  apart : l.textpos + x.textLen ≤ l.datapos ∨ l.memp + l.mempSize ≤ l.textpos

theorem fits_of_layout {x : FlatExec} (hl : x.layout = .ok l) (h : x.Relocatable l)
    (hread : x.ram = true → isErrValue x.textBytes = false) : x.Fits l := by
  have hstart := h.start
  have hfile := h.file
  have hdata := h.data
  rcases layout_cases hl with ⟨a, ha, hram, rfl⟩ | ⟨a, b, ha, hb, hrom, rfl⟩
  · -- a text so long that its end wraps would have been an error to read
    have hplaced := x.textPlaced a ha
    rw [if_pos hram, Placed, pagesOf_mapLen] at hplaced
    have hpos := mapped_pos ha
    have herr := hread hram
    rw [isErrValue, decide_eq_false_iff_not, FlatInput.textBytes, FlatInput.textLen] at herr
    have hstart : a ≤ align (wadd (wadd a x.hdr.dataStart) 4) 8 := hstart
    have hroom := h.room
    have hle : a + x.hdr.dataStart ≤ align (wadd (wadd a x.hdr.dataStart) 4) 8 := by
      simp only [align, alignDown, wadd] at hstart ⊢
      omega
    dsimp only at hroom
    refine ⟨?_, hplaced.2.2, .inl hle⟩
    simp only [FlatInput.textLen]
    omega
  · have hplaced := x.textPlaced a ha
    rw [if_neg (by rw [hrom]; decide), Placed] at hplaced
    have hplacedb := x.dataPlaced b hb hrom
    rw [Placed, pagesOf_mapLen] at hplacedb
    have hpages : x.textLen ≤ pagesOf x.textLen := by
      unfold pagesOf
      omega
    have hstart : b ≤ align (wadd b 4) 8 := hstart
    have hapart := x.apart a b ha hb hrom
    refine ⟨by dsimp only; omega, hplacedb.2.2, ?_⟩
    dsimp only
    omega

/-! ### The image in memory -/

theorem dataStart_lt (x : FlatInput) : x.hdr.dataStart < 4294967296 := by
  rw [FlatInput.hdr, flatHdr]
  exact be32_lt _ _

theorem dataEnd_lt (x : FlatInput) : x.hdr.dataEnd < 4294967296 := by
  rw [FlatInput.hdr, flatHdr]
  exact be32_lt _ _

/-- The lengths that the header gives, when they do not wrap. -/
structure FlatInput.Lengths (x : FlatInput) : Prop where
  data : x.dataLen = x.hdr.dataEnd - x.hdr.dataStart
  relocs : x.relocs = x.hdr.relocCount
  text : x.textBytes = x.hdr.dataStart
  bytes : x.dataBytes = x.hdr.dataEnd - x.hdr.dataStart + 4 * x.hdr.relocCount

theorem FlatInput.Relocatable.lengths (h : x.Relocatable l) (g : x.Fits l) : x.Lengths := by
  have hdata := h.data
  have hroom := h.room
  have hfile := h.file
  have htop := g.top
  have hend := dataEnd_lt x
  have hsum : x.hdr.dataEnd - x.hdr.dataStart + 4 * x.hdr.relocCount < 4294967296 := by omega
  have htext : min x.hdr.dataStart x.file.length = x.hdr.dataStart := by omega
  have hread : min (x.hdr.dataEnd - x.hdr.dataStart + 4 * x.hdr.relocCount)
      (x.file.length - x.hdr.dataStart) =
        x.hdr.dataEnd - x.hdr.dataStart + 4 * x.hdr.relocCount := by omega
  have hcount : x.hdr.relocCount < 2147483648 := by omega
  have hmul : x.hdr.relocCount * 4 % 4294967296 = 4 * x.hdr.relocCount := by omega
  constructor
  · rw [FlatInput.dataLen, wsub_of_le hend hdata]
  · rw [FlatInput.relocs, if_pos hcount]
  · rw [FlatInput.textBytes, FlatInput.textLen, htext]
  · rw [FlatInput.dataBytes, FlatInput.dataLen, wsub_of_le hend hdata, FlatInput.relocBytes, wmul,
      hmul, wadd_of_lt hsum, hread]

variable (h : x.Relocatable l) (g : x.Fits l)

include h g

/-- The bytes of the file are where they are loaded. -/
theorem imageMem_place {o : Nat} (ho : o < x.hdr.dataEnd + 4 * x.hdr.relocCount) :
    x.imageMem l (x.place l o) = x.fileByte o := by
  have hlen := h.lengths g
  have hroom := h.room
  have hdata := h.data
  have hstart := h.start
  have htop := g.top
  have htext := g.text
  have hapart := g.apart
  unfold FlatInput.textLen at htext hapart
  rw [FlatInput.place, FlatInput.textLen, FlatInput.imageMem, hlen.bytes, hlen.text]
  by_cases hlt : o < x.hdr.dataStart
  · rw [if_pos hlt, Mem.write_of_le _ _ (by unfold wsub; omega)]
    by_cases hram : x.ram = true
    · have hoff : wsub (l.textpos + o) l.textpos = o := by
        unfold wsub
        omega
      rw [if_pos hram, Mem.write_of_lt _ _ (by rw [hoff]; exact hlt), hoff, Nat.zero_add,
        FlatInput.fileByte]
    · rw [if_neg hram]
      exact h.mapped (Bool.eq_false_iff.mpr hram) o hlt
  · have hoff : wsub (l.datapos + (o - x.hdr.dataStart)) l.datapos = o - x.hdr.dataStart := by
      unfold wsub
      omega
    rw [if_neg hlt, Mem.write_of_lt _ _ (by rw [hoff]; omega), hoff, Nat.add_sub_cancel' (by omega),
      FlatInput.fileByte]

/-- A word of the file that is not cut by the end of the text. -/
theorem place_word {o : Nat} (hin : o + 4 ≤ x.hdr.dataStart ∨ x.hdr.dataStart ≤ o)
    (ho : o + 4 ≤ x.hdr.dataEnd + 4 * x.hdr.relocCount) :
    x.place l o + 4 ≤ 4294967296 ∧ ∀ k < 4, wadd (x.place l o) k = x.place l (o + k) := by
  have hroom := h.room
  have hdata := h.data
  have htop := g.top
  have htext := g.text
  unfold FlatInput.textLen at htext
  have hlt : x.place l o + 4 ≤ 4294967296 := by
    unfold FlatInput.place FlatInput.textLen
    split <;> omega
  refine ⟨hlt, fun k hk => ?_⟩
  rw [wadd_of_lt (by omega)]
  unfold FlatInput.place FlatInput.textLen
  split
  next => rw [if_pos (by omega), Nat.add_assoc]
  next => rw [if_neg (by omega)]; omega

theorem ntohl_imageMem {o : Nat} (hin : o + 4 ≤ x.hdr.dataStart ∨ x.hdr.dataStart ≤ o)
    (ho : o + 4 ≤ x.hdr.dataEnd + 4 * x.hdr.relocCount) :
    ntohl ((x.imageMem l).word (x.place l o)) = be32 x.fileByte o := by
  obtain ⟨hlt, hplace⟩ := place_word h g hin ho
  apply ntohl_word (by omega)
  intro k hk
  rw [hplace k hk]
  exact imageMem_place h g (by omega)

omit g in
/-- The word that an entry names is in the text or in the data. -/
theorem entry_in {r : Nat} (hr : r ∈ x.relocTable) :
    (64 + r + 4 ≤ x.hdr.dataStart ∨ x.hdr.dataStart ≤ 64 + r) ∧ 64 + r + 4 ≤ x.hdr.dataEnd := by
  have hdata := h.data
  rcases h.entries r hr with hin | hin
  · omega
  · omega

/-- Words of the file that are apart are loaded apart. -/
theorem place_apart {o o' : Nat} (hin : o + 4 ≤ x.hdr.dataStart ∨ x.hdr.dataStart ≤ o)
    (hin' : o' + 4 ≤ x.hdr.dataStart ∨ x.hdr.dataStart ≤ o')
    (ho : o + 4 ≤ x.hdr.dataEnd + 4 * x.hdr.relocCount)
    (ho' : o' + 4 ≤ x.hdr.dataEnd + 4 * x.hdr.relocCount) (hap : Mem.Apart o o') :
    Mem.Apart (x.place l o) (x.place l o') := by
  have hroom := h.room
  have hdata := h.data
  have hstart := h.start
  have hapart := g.apart
  unfold FlatInput.textLen at hapart
  unfold Mem.Apart at hap ⊢
  unfold FlatInput.place FlatInput.textLen
  rcases hin with hin | hin
  · rw [if_pos (by omega)]
    split <;> omega
  · rw [if_neg (by omega)]
    rcases hin' with hin' | hin'
    · rw [if_pos (by omega)]
      omega
    · rw [if_neg (by omega)]
      omega

/-- An offset that `calc_reloc` accepts becomes an address of text, data or bss. -/
theorem calcReloc_eq {v : Nat} (hv : v < 4294967296)
    (hok : calcReloc (x.image l) v ≠ relocFailed) :
    calcReloc (x.image l) v = if v < x.textLen - 64 then wadd (l.textpos + 64) v
      else wadd l.datapos (v - (x.textLen - 64)) := by
  have htext := g.text
  have hlen := h.text
  have hstart := dataStart_lt x
  unfold calcReloc at hok ⊢
  split at hok
  next hvalid =>
    rw [if_pos hvalid]
    have hcode : (x.image l).startCode = l.textpos + 64 := by
      rw [FlatInput.image, wadd_of_lt]
      unfold FlatInput.textLen at htext
      omega
    have hreal : (x.image l).textLen = x.textLen - 64 := by
      rw [FlatInput.image, FlatInput.textLen, wsub_of_le hstart hlen]
    have hdatapos : (x.image l).startData = l.datapos := by
      rw [FlatInput.image]
    rw [hcode, hreal, hdatapos]
    split
    next => rw [wadd, wadd, Nat.add_comm]
    next hge => rw [wsub_of_le hv (by omega), wadd, wadd, Nat.add_comm]
  next => exact absurd rfl hok

/-- The location of an accepted entry. -/
theorem calcReloc_entry {r : Nat} (hr : r ∈ x.relocTable)
    (hok : calcReloc (x.image l) r ≠ relocFailed) :
    calcReloc (x.image l) r = x.place l (64 + r) := by
  obtain ⟨hin, hle⟩ := entry_in h hr
  have hend := dataEnd_lt x
  have htext := g.text
  have hlen := h.text
  have hroom := h.room
  have htop := g.top
  rw [calcReloc_eq h g (by omega) hok]
  unfold FlatInput.place FlatInput.textLen at *
  by_cases hlt : 64 + r < x.hdr.dataStart
  · rw [if_pos (by omega), if_pos hlt, wadd_of_lt (by omega), Nat.add_assoc]
  · rw [if_neg (by omega), if_neg hlt, wadd_of_lt (by omega)]
    omega

omit h g in
theorem length_relocTable (x : FlatInput) : x.relocTable.length = x.hdr.relocCount := by
  rw [FlatInput.relocTable, List.length_map, List.length_range]

/-- The entries of the table are where the loop looks for them. -/
theorem reloc_eq : x.reloc l = x.place l x.hdr.dataEnd := by
  have hroom := h.room
  have hdata := h.data
  have htop := g.top
  have hend := dataEnd_lt x
  rw [FlatInput.reloc, h.reloc, FlatInput.place, FlatInput.textLen, wsub_of_le hend hdata,
    wadd_of_lt (by omega), if_neg (by omega)]

/-- The words that the entries name. -/
def FlatInput.relocWords (x : FlatInput) (l : Layout) : List Nat :=
  x.relocTable.map fun r => x.place l (64 + r)

/-- Each entry of the table is accepted. -/
def FlatInput.AllAccepted (x : FlatInput) (l : Layout) : Prop :=
  ∀ r ∈ x.relocTable, Accepted (x.image l) (x.imageMem l) r (x.place l (64 + r))

theorem relocWords_lt : ∀ a ∈ x.relocWords l, a + 4 ≤ 4294967296 := by
  intro a ha
  obtain ⟨r, hr, rfl⟩ := List.mem_map.mp ha
  obtain ⟨hin, hle⟩ := entry_in h hr
  exact (place_word h g hin (by omega)).1

theorem relocWords_apart : (x.relocWords l).Pairwise Mem.Apart := by
  rw [FlatInput.relocWords, List.pairwise_map]
  apply List.Pairwise.imp_of_mem _ h.apart
  intro r s hr hs hap
  obtain ⟨hin, hle⟩ := entry_in h hr
  obtain ⟨hin', hle'⟩ := entry_in h hs
  apply place_apart h g hin hin' (by omega) (by omega)
  unfold Mem.Apart at hap ⊢
  omega

theorem twp_relocate : Prog.twp (x.relocate l) Q (x.imageMem l) ↔
    x.AllAccepted l ∧
      Q () ((x.imageMem l).rewriteWords (relocated (x.image l)) (x.relocWords l)) := by
  have hlen := length_relocTable x
  have hreloc := reloc_eq h g
  have hend : x.place l x.hdr.dataEnd = l.datapos + (x.hdr.dataEnd - x.hdr.dataStart) := by
    have hdata := h.data
    rw [FlatInput.place, FlatInput.textLen, if_neg (by omega)]
  have hrev : oldFlatVersion < x.hdr.rev := by
    rw [h.rev]
    decide
  have hplace (j : Nat) (hj : j < x.relocTable.length) :
      x.place l x.hdr.dataEnd + 4 * (0 + j) = x.place l (x.hdr.dataEnd + 4 * j) := by
    have hdata := h.data
    rw [FlatInput.place, FlatInput.place, FlatInput.textLen, if_neg (by omega), if_neg (by omega)]
    omega
  have hroom := h.room
  have htop := g.top
  rw [FlatInput.relocate, h.got, if_neg (by decide), if_pos hrev, (h.lengths g).relocs, ← hlen,
    hreloc]
  apply twp_forRelocs
  · omega
  · intro j hj
    rw [hplace j hj, ntohl_imageMem h g (by have := h.data; omega) (by omega)]
    simp only [FlatInput.relocTable, List.getElem_map, List.getElem_range]
  · exact fun r hr => calcReloc_entry h g hr
  · intro r hr
    exact relocWords_lt h g _ (List.mem_map_of_mem hr)
  · intro r hr j hj
    obtain ⟨hin, hle⟩ := entry_in h hr
    rw [hplace j hj]
    apply place_apart h g hin (by have := h.data; omega) (by omega) (by omega)
    exact .inl (by omega)
  · exact relocWords_apart h g

omit h g in
/-- The memory that `load_flat_file` leaves. -/
def FlatInput.loadedMem (x : FlatInput) (l : Layout) : Mem :=
  ((x.imageMem l).rewriteWords (relocated (x.image l)) (x.relocWords l)).write
    (l.datapos + (x.hdr.dataEnd - x.hdr.dataStart))
    (l.memp + l.mempSize - (l.datapos + (x.hdr.dataEnd - x.hdr.dataStart))) fun _ => 0

end Load

/-- `load_flat_file` returns when the file is read and each entry is accepted. -/
theorem twp_loadFlatFile {x : FlatInput} {l : Layout} {Q : FlatImage → Mem → Prop}
    (hl : x.layout = .ok l) (h : x.Relocatable l) (hfits : x.ReadsOk → x.Fits l) :
    Prog.twp x.loadFlatFile Q x.mem ↔
      x.ReadsOk ∧ x.AllAccepted l ∧ Q (x.image l) (x.loadedMem l) := by
  rw [FlatInput.loadFlatFile.eq_def, hl]
  dsimp only
  rw [Prog.twp_bind, twp_readImage]
  apply and_congr_right
  intro hread
  have g := hfits hread
  rw [Prog.twp_bind, twp_relocate h g]
  apply and_congr_right
  intro _
  have hroom := h.room
  have htop := g.top
  have hdata := (h.lengths g).data
  have hstart : wadd l.datapos x.dataLen = l.datapos + (x.hdr.dataEnd - x.hdr.dataStart) := by
    rw [hdata, wadd_of_lt (by omega)]
  have hstack : x.stackLen < 4294967296 := by
    rw [FlatInput.stackLen]
    exact wadd_lt _ _
  have hclear := clear_len x.bssLen (wadd_lt l.datapos x.dataLen) hstack htop
  have hlen : wsub (l.memp + l.mempSize) (l.datapos + (x.hdr.dataEnd - x.hdr.dataStart)) =
      l.memp + l.mempSize - (l.datapos + (x.hdr.dataEnd - x.hdr.dataStart)) :=
    wsub_of_le htop (by omega)
  have hbrk : (x.image l).startBrk = wadd (wadd l.datapos x.dataLen) x.bssLen := by
    rw [FlatInput.image]
  rw [Prog.twp_bind, FlatInput.clear, Prog.twp_fill, Prog.twp_pure, hbrk, wadd_of_lt htop, hclear,
    hstart, hlen, FlatInput.loadedMem]

/-! ### The relocated image -/

section Relocated

variable {x : FlatInput} {l : Layout} (h : x.Relocatable l) (g : x.Fits l)

include h g

theorem loadedMem_zero {a : Nat} (hlow : l.datapos + (x.hdr.dataEnd - x.hdr.dataStart) ≤ a)
    (htop : a < l.memp + l.mempSize) : x.loadedMem l a = 0 := by
  have hend := g.top
  have hroom := h.room
  rw [FlatInput.loadedMem, Mem.write_of_lt]
  unfold wsub
  omega

theorem loadedMem_of_not_cleared {a : Nat} (ha : a < 4294967296)
    (hout : a < l.datapos + (x.hdr.dataEnd - x.hdr.dataStart) ∨ l.memp + l.mempSize ≤ a) :
    x.loadedMem l a =
      (x.imageMem l).rewriteWords (relocated (x.image l)) (x.relocWords l) a := by
  have hend := g.top
  have hroom := h.room
  rw [FlatInput.loadedMem, Mem.write_of_le]
  unfold wsub
  omega

/-- Text and data are not cleared. -/
theorem place_not_cleared {o : Nat} (ho : o < x.hdr.dataEnd) :
    x.place l o < 4294967296 ∧ (x.place l o < l.datapos + (x.hdr.dataEnd - x.hdr.dataStart) ∨
      l.memp + l.mempSize ≤ x.place l o) := by
  have hroom := h.room
  have htop := g.top
  have htext := g.text
  have hapart := g.apart
  have hdata := h.data
  unfold FlatInput.textLen at htext hapart
  unfold FlatInput.place FlatInput.textLen
  split <;> omega

/-- What an accepted entry makes of the word it names. -/
theorem relocated_word (hacc : x.AllAccepted l) {r : Nat} (hr : r ∈ x.relocTable) :
    (relocated (x.image l) ((x.imageMem l).word (x.place l (64 + r)))).getD
        ((x.imageMem l).word (x.place l (64 + r))) =
      x.newWord l (be32 x.fileByte (64 + r)) := by
  obtain ⟨hin, hle⟩ := entry_in h hr
  have hv := ntohl_imageMem h g hin (by omega)
  have hlt := Mem.word_lt (x.imageMem l) (x.place l (64 + r))
  have hok := (hacc r hr).2
  generalize (x.imageMem l).word (x.place l (64 + r)) = w at *
  rw [relocated, FlatInput.newWord, ← hv]
  by_cases hw : w = 0
  · rw [if_pos hw, if_pos ((ntohl_eq_zero hlt).mpr hw), Option.getD_none, hw]
  · have hvlt : ntohl w < 4294967296 := by
      rw [hv]
      exact be32_lt _ _
    rw [if_neg hw, if_neg (mt (ntohl_eq_zero hlt).mp hw), Option.getD_some,
      calcReloc_eq h g hvlt (hok hw)]

theorem loadedMem_word (hacc : x.AllAccepted l) {r k : Nat} (hr : r ∈ x.relocTable) (hk : k < 4) :
    x.loadedMem l (wadd (x.place l (64 + r)) k) =
      Mem.bytesOf (x.newWord l (be32 x.fileByte (64 + r))) k := by
  obtain ⟨hin, hle⟩ := entry_in h hr
  obtain ⟨hlt, hplace⟩ := place_word h g hin (by omega)
  have hout := @place_not_cleared x l h g (64 + r + k) (by omega)
  rw [← hplace k hk] at hout
  rw [loadedMem_of_not_cleared h g hout.1 hout.2, Mem.rewriteWords_mem _ (relocWords_lt h g)
    (relocWords_apart h g) (List.mem_map_of_mem hr) hk, relocated_word h g hacc hr]

omit h g in
theorem newWord_lt (x : FlatInput) (l : Layout) (v : Nat) : x.newWord l v < 4294967296 := by
  unfold FlatInput.newWord
  split
  · decide
  · split
    · exact wadd_lt _ _
    · exact wadd_lt _ _

/-- A byte of text or data that no entry names. -/
theorem place_not_reloc {o : Nat} (ho : o < x.hdr.dataEnd)
    (hnot : ∀ r ∈ x.relocTable, ¬ (64 + r ≤ o ∧ o < 64 + r + 4)) :
    ∀ a ∈ x.relocWords l, 4 ≤ wsub (x.place l o) a := by
  intro a ha
  obtain ⟨r, hr, rfl⟩ := List.mem_map.mp ha
  obtain ⟨hin, hle⟩ := entry_in h hr
  have hnot := hnot r hr
  have hroom := h.room
  have htop := g.top
  have htext := g.text
  have hapart := g.apart
  have hdata := h.data
  have hstart := h.start
  unfold FlatInput.textLen at htext hapart
  unfold FlatInput.place FlatInput.textLen wsub
  rcases hin with hin | hin
  · rw [if_pos (show 64 + r < x.hdr.dataStart by omega)]
    split <;> omega
  · rw [if_neg (show ¬ 64 + r < x.hdr.dataStart by omega)]
    split <;> omega

theorem relocated_loadedMem (hacc : x.AllAccepted l) : x.Relocated l (x.loadedMem l) := by
  refine ⟨fun r hr => ?_, fun o ho hnot => ?_, fun a hlow htop => loadedMem_zero h g hlow htop⟩
  · obtain ⟨hin, hle⟩ := entry_in h hr
    have hlt := (place_word h g hin (by omega)).1
    exact Mem.word_of_bytes (by omega) (newWord_lt x l _) fun k hk => loadedMem_word h g hacc hr hk
  · obtain ⟨hlt, hout⟩ := place_not_cleared h g ho
    rw [loadedMem_of_not_cleared h g hlt hout,
      Mem.rewriteWords_of_not_mem _ (place_not_reloc h g ho hnot), imageMem_place h g (by omega)]

end Relocated

/-! ### The order of the table -/

section Reorder

variable {x y : FlatInput} {l : Layout}

namespace FlatInput.Reorders

variable (hre : y.Reorders x)

include hre

theorem hdr_eq : y.hdr = x.hdr := by
  rw [FlatInput.hdr, FlatInput.hdr, hre.hdr]

theorem flags_eq : y.flags = x.flags := by
  rw [FlatInput.flags, FlatInput.flags, hre.hdr_eq]

theorem ram_eq : y.ram = x.ram := by
  rw [FlatInput.ram, FlatInput.ram, hre.flags_eq]

theorem textLen_eq : y.textLen = x.textLen := by
  rw [FlatInput.textLen, FlatInput.textLen, hre.hdr_eq]

theorem dataLen_eq : y.dataLen = x.dataLen := by
  rw [FlatInput.dataLen, FlatInput.dataLen, hre.hdr_eq]

theorem bssLen_eq : y.bssLen = x.bssLen := by
  rw [FlatInput.bssLen, FlatInput.bssLen, hre.hdr_eq]

theorem relocBytes_eq : y.relocBytes = x.relocBytes := by
  rw [FlatInput.relocBytes, FlatInput.relocBytes, hre.hdr_eq]

theorem stackLen_eq : y.stackLen = x.stackLen := by
  have hargv : y.argv = x.argv := by rw [hre.same]
  have henvp : y.envp = x.envp := by rw [hre.same]
  have hname : y.filename = x.filename := by rw [hre.same]
  simp only [FlatInput.stackLen, FlatInput.extraStack, FlatInput.argc, FlatInput.envc, FlatInput.p,
    FlatInput.strings, hre.hdr_eq, hargv, henvp, hname]

theorem layout_eq : y.layout = x.layout := by
  have htext : y.textMap = x.textMap := by rw [hre.same]
  have hdata : y.dataMap = x.dataMap := by rw [hre.same]
  have hrlim : y.rlimData = x.rlimData := by rw [hre.same]
  have hflush : y.flushOldExec = x.flushOldExec := by rw [hre.same]
  have hcheck : y.check = x.check := by
    rw [FlatInput.check.eq_def, FlatInput.check.eq_def, hre.hdr_eq, hre.flags_eq, hre.dataLen_eq,
      hre.bssLen_eq, hrlim, hflush]
  have hlen : y.mapLen = x.mapLen := by
    rw [FlatInput.mapLen, FlatInput.mapLen, FlatInput.extra, FlatInput.extra, hre.ram_eq,
      hre.textLen_eq, hre.dataLen_eq, hre.bssLen_eq, hre.stackLen_eq, hre.relocBytes_eq]
  rw [FlatInput.layout, FlatInput.layout, hcheck, hre.ram_eq, htext, hdata, hre.hdr_eq, hlen,
    hre.textLen_eq]

theorem image_eq (l : Layout) : y.image l = x.image l := by
  rw [FlatInput.image, FlatInput.image, hre.hdr_eq, hre.textLen_eq, hre.dataLen_eq, hre.bssLen_eq,
    hre.stackLen_eq]

theorem mem_eq : y.mem = x.mem := by
  rw [hre.same]

theorem place_eq (l : Layout) (o : Nat) : y.place l o = x.place l o := by
  rw [FlatInput.place, FlatInput.place, hre.textLen_eq]

theorem newWord_eq (l : Layout) (v : Nat) : y.newWord l v = x.newWord l v := by
  rw [FlatInput.newWord, FlatInput.newWord, hre.textLen_eq]

theorem textBytes_eq : y.textBytes = x.textBytes := by
  rw [FlatInput.textBytes, FlatInput.textBytes, hre.textLen_eq, hre.long]

theorem dataBytes_eq : y.dataBytes = x.dataBytes := by
  rw [FlatInput.dataBytes, FlatInput.dataBytes, hre.dataLen_eq, hre.relocBytes_eq, hre.hdr_eq,
    hre.long]

theorem fits (g : x.Fits l) : y.Fits l := by
  have htext := g.text
  have hapart := g.apart
  rw [← hre.textLen_eq] at htext hapart
  exact ⟨htext, g.top, hapart⟩

theorem readsOk : y.ReadsOk ↔ x.ReadsOk := by
  have htext : y.readText = x.readText := by rw [hre.same]
  have hdata : y.readData = x.readData := by rw [hre.same]
  rw [FlatInput.ReadsOk, FlatInput.ReadsOk, hre.ram_eq, hre.textBytes_eq, hre.dataBytes_eq, htext,
    hdata]

theorem relocatable (h : x.Relocatable l) : y.Relocatable l where
  rev := hre.hdr_eq ▸ h.rev
  got := by
    rw [FlatInput.gotpic, hre.flags_eq]
    exact h.got
  text := hre.hdr_eq ▸ h.text
  data := hre.hdr_eq ▸ h.data
  bss := hre.hdr_eq ▸ h.bss
  reloc := hre.hdr_eq ▸ h.reloc
  file := by
    rw [hre.hdr_eq, hre.long]
    exact h.file
  start := h.start
  room := hre.hdr_eq ▸ h.room
  entries := by
    intro r hr
    rw [hre.hdr_eq]
    exact h.entries r (hre.table.mem_iff.mp hr)
  apart := (hre.table.pairwise_iff Mem.Apart.symm).mpr h.apart
  mapped := by
    intro hrom o ho
    rw [hre.textLen_eq] at ho
    have hlt : o < x.hdr.dataEnd := Nat.lt_of_lt_of_le ho h.data
    rw [hre.mem_eq, hre.bytes o hlt]
    exact h.mapped (hre.ram_eq ▸ hrom) o ho

variable (h : x.Relocatable l) (g : x.Fits l)

include h g

/-- The words that the entries name are loaded alike. -/
theorem word_eq {r : Nat} (hr : r ∈ x.relocTable) :
    (y.imageMem l).word (x.place l (64 + r)) = (x.imageMem l).word (x.place l (64 + r)) := by
  obtain ⟨hin, hle⟩ := entry_in h hr
  obtain ⟨hlt, hplace⟩ := place_word h g hin (by omega)
  apply Mem.word_congr (by omega)
  intro k hk
  have hy := @imageMem_place y l (hre.relocatable h) (hre.fits g) (64 + r + k)
    (by rw [hre.hdr_eq]; omega)
  rw [hre.place_eq, hre.bytes _ (by omega)] at hy
  rw [hplace k hk, hy, imageMem_place h g (by omega)]

theorem allAccepted (hacc : x.AllAccepted l) : y.AllAccepted l := by
  intro r hr
  have hr := hre.table.mem_iff.mp hr
  have hx := hacc r hr
  rw [Accepted] at hx ⊢
  rw [hre.image_eq, hre.place_eq, hre.word_eq h g hr]
  exact hx

/-- What is read differs in the table only. -/
theorem imageMem_eq {a : Nat} (ha : a < 4294967296)
    (hout : a < l.datapos + (x.hdr.dataEnd - x.hdr.dataStart) ∨ l.memp + l.mempSize ≤ a) :
    y.imageMem l a = x.imageMem l a := by
  have hroom := h.room
  have hdata := h.data
  have hfile (o : Nat) (ho : o < x.hdr.dataEnd) : y.file.getD o 0 = x.file.getD o 0 :=
    hre.bytes o ho
  have hlen := h.lengths g
  rw [FlatInput.imageMem, FlatInput.imageMem, hre.dataBytes_eq, hre.textBytes_eq, hre.ram_eq,
    hre.hdr_eq, hre.mem_eq, hlen.bytes, hlen.text]
  have htext : (x.mem.write l.textpos x.hdr.dataStart fun k => y.file.getD (0 + k) 0) =
      x.mem.write l.textpos x.hdr.dataStart fun k => x.file.getD (0 + k) 0 := by
    apply Mem.write_congr
    intro k hk
    exact hfile (0 + k) (by omega)
  rw [htext]
  by_cases hin : wsub a l.datapos < x.hdr.dataEnd - x.hdr.dataStart + 4 * x.hdr.relocCount
  · rw [Mem.write_of_lt _ _ hin, Mem.write_of_lt _ _ hin]
    apply hfile
    have htop := g.top
    unfold wsub at hin ⊢
    omega
  · rw [Mem.write_of_le _ _ (by omega), Mem.write_of_le _ _ (by omega)]

/-- The order of the entries makes no difference. -/
theorem loadedMem_eq (hacc : x.AllAccepted l) {a : Nat} (ha : a < 4294967296) :
    y.loadedMem l a = x.loadedMem l a := by
  have hy := hre.relocatable h
  have gy := hre.fits g
  by_cases hclear : l.datapos + (x.hdr.dataEnd - x.hdr.dataStart) ≤ a ∧ a < l.memp + l.mempSize
  · have hclear' := hclear
    rw [← hre.hdr_eq] at hclear'
    rw [loadedMem_zero h g hclear.1 hclear.2, loadedMem_zero hy gy hclear'.1 hclear'.2]
  by_cases hword : ∃ r ∈ x.relocTable, wsub a (x.place l (64 + r)) < 4
  · obtain ⟨r, hr, hk⟩ := hword
    obtain ⟨hin, hle⟩ := entry_in h hr
    have hlt := (place_word h g hin (by omega)).1
    have hat : wadd (x.place l (64 + r)) (wsub a (x.place l (64 + r))) = a :=
      wadd_wsub (by omega) ha
    have hx := loadedMem_word h g hacc hr hk
    have hr' := hre.table.mem_iff.mpr hr
    rw [← hre.place_eq] at hk hat
    have hy' := loadedMem_word hy gy (hre.allAccepted h g hacc) hr' hk
    have hbe : be32 y.fileByte (64 + r) = be32 x.fileByte (64 + r) := by
      rw [be32, be32, hre.bytes _ (by omega), hre.bytes _ (by omega), hre.bytes _ (by omega),
        hre.bytes _ (by omega)]
    rw [hat, hbe, hre.newWord_eq, hre.place_eq] at hy'
    rw [hre.place_eq] at hat
    rw [hat] at hx
    rw [hx, hy']
  · -- neither cleared nor relocated: as it was read
    have hout : a < l.datapos + (x.hdr.dataEnd - x.hdr.dataStart) ∨ l.memp + l.mempSize ≤ a := by
      omega
    have hkeep : ∀ b ∈ x.relocWords l, 4 ≤ wsub a b := by
      intro b hb
      obtain ⟨r, hr, rfl⟩ := List.mem_map.mp hb
      exact Nat.le_of_not_lt fun hlt => hword ⟨r, hr, hlt⟩
    have hkeep' : ∀ b ∈ y.relocWords l, 4 ≤ wsub a b := by
      intro b hb
      obtain ⟨r, hr, rfl⟩ := List.mem_map.mp hb
      rw [hre.place_eq]
      exact hkeep _ (List.mem_map_of_mem (hre.table.mem_iff.mp hr))
    rw [loadedMem_of_not_cleared h g ha hout,
      loadedMem_of_not_cleared hy gy ha (by rw [hre.hdr_eq]; exact hout),
      Mem.rewriteWords_of_not_mem _ hkeep, Mem.rewriteWords_of_not_mem _ hkeep',
      hre.imageMem_eq h g ha hout]

end FlatInput.Reorders

end Reorder

/-! ### Staying in the mappings -/

/-- Whatever the entries name, they are safe if the table and all addresses that `calc_reloc` gives
lie in `P`. -/
theorem entriesOk_of_forall {P : Nat → Prop} {lib : FlatImage} {gotpic : Bool} {reloc n i : Nat}
    {Q : Prop} {m : Mem} (hQ : Q)
    (htable : ∀ j < n, Access.Inside P ⟨wadd reloc (wmul (i + j) 4), 4⟩)
    (hcalc : ∀ r, calcReloc lib r ≠ relocFailed → Access.Inside P ⟨calcReloc lib r, 4⟩) :
    EntriesOk P lib gotpic reloc Q n i m := by
  induction n generalizing i m with
  | zero => exact hQ
  | succ n ih =>
    have hrest (m : Mem) : EntriesOk P lib gotpic reloc Q n (i + 1) m := by
      apply ih
      intro j hj
      rw [Nat.add_assoc, Nat.add_comm 1 j]
      exact htable (j + 1) (Nat.succ_lt_succ hj)
    exact ⟨htable 0 (Nat.succ_pos n),
      fun hrp => ⟨hcalc _ hrp, fun _ => hrest _, fun _ _ => hrest _⟩⟩

/-- The loader stays in the mapping of a relocatable image for RAM that holds a word behind the bss
and the arguments: no condition on the contents of memory is left. -/
theorem ok_of_relocatable {x : FlatExec} {l : Layout} (hl : x.layout = .ok l) (hram : x.ram = true)
    (h : x.Relocatable l) (hread : isErrValue x.textBytes = false)
    (hbss : l.datapos + (x.hdr.bssEnd - x.hdr.dataStart) + 4 ≤ l.memp + l.mempSize)
    (hargs : 0 < x.p ∧ x.strings.length + 4 * (x.argc + x.envc) + 24 ≤ l.mempSize) : x.Ok := by
  intro l' hl'
  rw [hl] at hl'
  cases hl'
  have g := good_of_layout hl
  have f := fits_of_layout hl h fun _ => hread
  have hlen := h.lengths f
  obtain ⟨hpos, hhi⟩ := g.text hram
  have hlo := g.lo_le
  have hhi' := g.le_hi
  have hroom := h.room
  have htext := h.text
  have hdata := h.data
  have hend := h.bss
  have htop := f.top
  have hapart := f.apart
  unfold FlatInput.textLen at hapart
  have hin {a : Nat} (h1 : l.lo ≤ a) (h2 : a + 4 ≤ l.hi) : Access.Inside x.Mapped ⟨a, 4⟩ :=
    (g.span.inside_iff h1 (by omega)).mpr h2
  refine ⟨fun _ _ => by rw [hlen.text]; omega, fun _ _ => ⟨.inr ⟨by omega, ?_⟩, ?_⟩⟩
  · rw [hlen.bytes]
    omega
  rw [h.got, if_neg (by decide), FlatInput.RelocsOk, if_pos (by rw [h.rev]; decide), hlen.relocs]
  apply entriesOk_of_forall
  · exact ⟨by rw [hlen.data, wadd_of_lt (by omega)]; omega, by omega, hargs.1, by omega⟩
  · intro j hj
    have hentry : wadd (x.reloc l) (wmul (0 + j) 4) =
        l.datapos + (x.hdr.dataEnd - x.hdr.dataStart) + 4 * j := by
      rw [reloc_eq h f, FlatInput.place, FlatInput.textLen, if_neg (by omega), wadd, wmul]
      omega
    rw [hentry]
    exact hin (by omega) (by omega)
  · intro r hr
    have hle : r ≤ x.hdr.bssEnd - 64 := by
      by_contra hgt
      refine hr (if_neg ?_)
      simp only [flatRelocValid, FlatInput.image, hlen.data, FlatInput.bssLen, FlatInput.textLen,
        wadd, wsub, decide_eq_true_eq]
      omega
    rw [calcReloc_eq h f (by omega) hr, FlatInput.textLen]
    split
    · rw [wadd_of_lt (by omega)]
      exact hin (by omega) (by omega)
    · rw [wadd_of_lt (by omega)]
      exact hin (by omega) (by omega)

/-- An image in RAM with one relocated word in the text and one in the data. -/
def pairExec : FlatExec :=
  ramExec [72, 80, 84, 4096, 80, 2] (List.replicate 64 0 ++
    [0, 0, 0, 8, 0, 0, 0, 0, 0, 0, 0, 4, 1, 2, 3, 4, 0, 0, 0, 0, 0, 0, 0, 8]) [[97]] (by decide)
    (by decide)

/-- The mapping of `pairExec`. -/
def pairLayout : Layout :=
  ⟨0xC0100000, 0xC0100050, 0xC0100000, 8192, [⟨0xC0100000, 8192⟩]⟩

theorem pairExec_layout : pairExec.layout = .ok pairLayout := by rfl

theorem pairExec_relocatable : pairExec.Relocatable pairLayout := by
  constructor
  case mapped =>
    intro hrom
    exact absurd hrom (by decide)
  case apart => exact (by decide : [0, 8].Pairwise fun a b : Nat => a + 4 ≤ b ∨ b + 4 ≤ a)
  all_goals decide +kernel

theorem pairExec_returns : ∃ lib, (pairExec.loadFlatFile pairExec.mem).result = .ok lib := by
  have htwp : Prog.twp pairExec.loadFlatFile (fun _ _ => True) pairExec.mem := by
    apply (twp_loadFlatFile pairExec_layout pairExec_relocatable
      (fits_of_layout pairExec_layout pairExec_relocatable ·.text)).mpr
    refine ⟨⟨by decide +kernel, by decide +kernel⟩, ?_, trivial⟩
    unfold FlatInput.AllAccepted Accepted
    decide +kernel
  obtain ⟨lib, hret, -⟩ := htwp
  exact ⟨lib, hret⟩

end LinuxStm32.Fs
