import LinuxStm32.Mm.DmamemPartition

/-!
# First fit in the DMA memory pool

What `dmamem_alloc` and `dmamem_free` return and undo, for every alignment, `mm/dmamem.c:140–289`.
The descriptors that the two functions get from `kmalloc` and give back to `kfree` are counted
beside the pool.
-/

namespace LinuxStm32.Mm

open Base Block

/-! ### Descriptors -/

/-- Descriptors a call of `dmamem_alloc` allocates, less those it frees; `mm/dmamem.c:179–200`. -/
def allocDescriptors (s : Dmamem) (size align : Nat) (ndmOk admOk : Bool) : Int :=
  let need := requestSize size
  let align := requestAlign align
  match s.lstFree.dropWhile (fun dm => !fits align need dm) with
  | [] => 0
  | dm :: _ =>
    let abase := alignedBase dm align
    let ndm : Int := if wadd (wsub abase dm.base) need < dm.size then 1 else 0
    if ndm = 1 ∧ ndmOk = false then 0
    else if abase ≠ dm.base then
      if admOk = false then ndm - ndm else ndm + 1
    else ndm

/-- Descriptors a call of `dmamem_free` frees; `mm/dmamem.c:275–288`. -/
def freeDescriptors (s : Dmamem) (base : Nat) : Int :=
  match s.lstUsed.find? (fun dm => dm.base == base) with
  | none => 0
  | some dm =>
    let pre := s.lstFree.takeWhile (fun f => decide (f.base < base))
    let post := s.lstFree.dropWhile (fun f => decide (f.base < base))
    (if ∃ next ∈ post.head?, wadd dm.base dm.size = next.base then 1 else 0) +
      (if ∃ prev ∈ pre.getLast?, wadd prev.base prev.size = dm.base then 1 else 0)

/-- The pool and the number of descriptors that are allocated. -/
structure DmPool where
  dm : Dmamem
  live : Int
  deriving DecidableEq, Repr

namespace DmPool

/-- The pool after a `dm_init` that got its descriptor. -/
def init (dmBase dmSzAll dmSzFb : Nat) : DmPool where
  dm := (dmInit dmBase dmSzAll dmSzFb true).2
  live := if dmSzAll = 0 then 0 else 1

/-- `dmamem_alloc` with its descriptors. -/
def alloc (p : DmPool) (size align : Nat) (ndmOk admOk : Bool) : Option Nat × DmPool :=
  let r := dmamemAlloc p.dm size align ndmOk admOk
  (r.1, ⟨r.2, p.live + allocDescriptors p.dm size align ndmOk admOk⟩)

/-- `dmamem_free` with its descriptors. -/
def free (p : DmPool) (base : Nat) : DmPool :=
  ⟨dmamemFree p.dm base, p.live - freeDescriptors p.dm base⟩

/-- All descriptors are in one of the two lists. -/
def NoLeak (p : DmPool) : Prop := p.live = p.dm.lstFree.length + p.dm.lstUsed.length

end DmPool

theorem length_joinNext (dm : DmDsc) (post : List DmDsc) :
    ((joinNext dm post).length : Int) = 1 + post.length -
      if ∃ next ∈ post.head?, wadd dm.base dm.size = next.base then 1 else 0 := by
  cases post with
  | nil => simp [joinNext]
  | cons next post =>
    simp only [joinNext, List.head?_cons, Option.mem_def, Option.some.injEq, exists_eq_left']
    split
    · simp only [List.length_cons]
      omega
    · simp only [List.length_cons]
      omega

theorem joinNext_base (dm : DmDsc) (post : List DmDsc) :
    ∃ n rest, joinNext dm post = ⟨dm.base, n⟩ :: rest := by
  cases post with
  | nil => exact ⟨dm.size, [], rfl⟩
  | cons next post =>
    rw [joinNext]
    split
    · exact ⟨_, post, rfl⟩
    · exact ⟨dm.size, next :: post, rfl⟩

theorem length_joinPrev (pre rest : List DmDsc) (dm : DmDsc) :
    ((joinPrev pre (dm :: rest)).length : Int) = pre.length + (1 + rest.length) -
      if ∃ prev ∈ pre.getLast?, wadd prev.base prev.size = dm.base then 1 else 0 := by
  rcases List.eq_nil_or_concat pre with rfl | ⟨init, prev, rfl⟩
  · simp [joinPrev]
    omega
  · rw [List.concat_eq_append]
    simp only [joinPrev, List.getLast?_append, List.getLast?_singleton, Option.some_or,
      Option.mem_def, Option.some.injEq, exists_eq_left', List.dropLast_concat]
    split
    · simp only [List.length_append, List.length_cons, List.length_nil]
      omega
    · simp only [List.length_append, List.length_cons, List.length_nil]
      omega

theorem length_carve (align need : Nat) (dm : DmDsc) :
    ((carve align need dm).1.length : Int) =
      (if alignedBase dm align ≠ dm.base then 1 else 0) +
        if wadd (wsub (alignedBase dm align) dm.base) need < dm.size then 1 else 0 := by
  unfold carve
  by_cases hbase : alignedBase dm align ≠ dm.base
  · simp only [if_pos hbase]
    split
    · rfl
    · rfl
  · simp only [if_neg hbase]
    split
    · rfl
    · rfl

/-- Allocation takes as many descriptors as it adds to the lists. -/
theorem allocDescriptors_eq (s : Dmamem) (size align : Nat) (ndmOk admOk : Bool) :
    allocDescriptors s size align ndmOk admOk =
      ((dmamemAlloc s size align ndmOk admOk).2.lstFree.length +
        (dmamemAlloc s size align ndmOk admOk).2.lstUsed.length : Int) -
          (s.lstFree.length + s.lstUsed.length) := by
  simp only [allocDescriptors, dmamemAlloc]
  generalize requestAlign align = al
  generalize requestSize size = need
  have hl : s.lstFree.takeWhile (fun dm => !fits al need dm) ++
      s.lstFree.dropWhile (fun dm => !fits al need dm) = s.lstFree :=
    List.takeWhile_append_dropWhile
  have hlen := congrArg List.length hl
  cases hd : s.lstFree.dropWhile (fun dm => !fits al need dm) with
  | nil =>
    dsimp only
    omega
  | cons dm post =>
    have hcarve := length_carve al need dm
    rw [hd, List.length_append, List.length_cons] at hlen
    dsimp only
    have hndm : ((if wadd (wsub (alignedBase dm al) dm.base) need < dm.size then 1 else 0 : Int) = 1
        ∧ ndmOk = false) ↔
        (wadd (wsub (alignedBase dm al) dm.base) need < dm.size ∧ ndmOk = false) := by
      split
      next h => simp [h]
      next h => simp [h]
    simp only [hndm]
    by_cases hfail : wadd (wsub (alignedBase dm al) dm.base) need < dm.size ∧ ndmOk = false
    · rw [if_pos hfail, if_pos hfail]
      dsimp only
      omega
    · rw [if_neg hfail, if_neg hfail]
      by_cases hadm : alignedBase dm al ≠ dm.base ∧ admOk = false
      · rw [if_pos hadm.1, if_pos hadm.2, if_pos hadm]
        dsimp only
        omega
      · rw [if_neg hadm]
        simp only [List.length_append, List.length_cons]
        by_cases hbase : alignedBase dm al ≠ dm.base
        · rw [if_pos hbase] at hcarve ⊢
          rw [if_neg (fun h => hadm ⟨hbase, h⟩)]
          omega
        · rw [if_neg hbase] at hcarve ⊢
          omega

/-- Freeing gives back as many descriptors as it takes out of the lists. -/
theorem freeDescriptors_eq (s : Dmamem) (base : Nat) :
    freeDescriptors s base = (s.lstFree.length + s.lstUsed.length : Int) -
      ((dmamemFree s base).lstFree.length + (dmamemFree s base).lstUsed.length) := by
  unfold freeDescriptors dmamemFree
  cases hf : s.lstUsed.find? (fun dm => dm.base == base) with
  | none =>
    dsimp only
    omega
  | some dm =>
    have hmem := List.mem_of_find?_eq_some hf
    have hbase := List.find?_some (p := fun dm : DmDsc => dm.base == base) hf
    have hused := List.length_eraseP_of_mem (p := fun dm => dm.base == base) hmem hbase
    have hpos := List.length_pos_of_mem hmem
    have hl : s.lstFree.takeWhile (fun f => decide (f.base < base)) ++
        s.lstFree.dropWhile (fun f => decide (f.base < base)) = s.lstFree :=
      List.takeWhile_append_dropWhile
    have hlen := congrArg List.length hl
    rw [List.length_append] at hlen
    dsimp only
    generalize s.lstFree.takeWhile (fun f => decide (f.base < base)) = pre at *
    generalize s.lstFree.dropWhile (fun f => decide (f.base < base)) = post at *
    have hnext := length_joinNext dm post
    obtain ⟨n, rest, hj⟩ := joinNext_base dm post
    have hprev := length_joinPrev pre rest ⟨dm.base, n⟩
    rw [hj] at hnext ⊢
    rw [List.length_cons] at hnext
    dsimp only at hprev
    generalize (if ∃ next ∈ post.head?, wadd dm.base dm.size = next.base then (1 : Int) else 0) =
      next at hnext ⊢
    generalize (if ∃ prev ∈ pre.getLast?, wadd prev.base prev.size = dm.base then (1 : Int)
      else 0) = prev at hprev ⊢
    omega

/-! ### The request -/

/-- Pages of a request, rounded up. -/
def pagesFor (size : Nat) : Nat := (size + (pageSize - 1)) / pageSize

/-- The alignment rounded up to pages; one page when none is asked for. -/
def pageAlignOf (align : Nat) : Nat :=
  max pageSize ((align + (pageSize - 1)) / pageSize * pageSize)

/-- A request for at least one byte and at most the area, with an area placed so that no sum
wraps. -/
structure ReqOk (s : Dmamem) (size align : Nat) : Prop where
  pos : 1 ≤ size
  le : size ≤ s.hi - s.lo
  noWrap : s.hi + pageAlignOf align + pagesFor size * pageSize ≤ 4294967296

/-- The first multiple of `align` from `base` on. -/
def firstMultiple (base align : Nat) : Nat := (base + (align - 1)) / align * align

/-- An address with the alignment from which `need` bytes are free in one block. -/
def Slot (s : Dmamem) (align need a : Nat) : Prop :=
  align ∣ a ∧ ∃ dm ∈ s.lstFree, dm.base ≤ a ∧ a + need ≤ dm.stop

theorem le_firstMultiple {base align : Nat} (h : 0 < align) : base ≤ firstMultiple base align := by
  have hlt := Nat.lt_div_mul_add (a := base + (align - 1)) h
  unfold firstMultiple
  omega

theorem firstMultiple_lt {base align : Nat} (h : 0 < align) :
    firstMultiple base align < base + align := by
  have hle := Nat.div_mul_le_self (base + (align - 1)) align
  unfold firstMultiple
  omega

theorem firstMultiple_le {base align a : Nat} (h : 0 < align) (hdvd : align ∣ a) (hle : base ≤ a) :
    firstMultiple base align ≤ a := by
  obtain ⟨k, rfl⟩ := hdvd
  have hdiv : (base + (align - 1)) / align ≤ k := by
    rw [← Nat.lt_succ_iff, Nat.div_lt_iff_lt_mul h, Nat.succ_mul, Nat.mul_comm k]
    omega
  rw [firstMultiple, Nat.mul_comm align k]
  exact Nat.mul_le_mul_right align hdiv

theorem pageSize_le_pageAlignOf (align : Nat) : pageSize ≤ pageAlignOf align :=
  Nat.le_max_left _ _

theorem pageAlignOf_pos (align : Nat) : 0 < pageAlignOf align :=
  Nat.lt_of_lt_of_le (by decide) (pageSize_le_pageAlignOf align)

section Request

variable {s : Dmamem} {size align : Nat} {dm : DmDsc}

theorem ReqOk.requestSize_eq (h : ReqOk s size align) :
    requestSize size = pagesFor size * pageSize := by
  have hw := h.noWrap
  have hle := pageSize_le_pageAlignOf align
  simp only [requestSize, pagesFor, pageSize, wadd, wmul] at *
  omega

theorem ReqOk.need_pos (h : ReqOk s size align) : 0 < pagesFor size * pageSize := by
  have hp := h.pos
  simp only [pagesFor, pageSize]
  omega

theorem ReqOk.requestAlign_eq (h : ReqOk s size align) :
    requestAlign align = pageAlignOf align := by
  have hw := h.noWrap
  have hneed := h.need_pos
  by_cases hz : align = 0
  · rw [hz]
    rfl
  · simp only [requestAlign, pageAlignOf, pageSize, wadd, alignDown, if_neg hz] at *
    split
    next hmod => omega
    next hmod => omega

/-- In a pool that serves some request every free block is nonempty and inside the area. -/
theorem ReqOk.free_bounds (h : ReqOk s size align) (hi : s.Inv)
    (hm : dm ∈ s.lstFree) : 0 < dm.size ∧ dm.stop ≤ s.hi := by
  have hpos : 0 < dm.size := by
    apply (hi.freePos dm hm).resolve_right
    have h1 := h.pos
    have h2 := h.le
    omega
  exact ⟨hpos, (hi.free_bounds hm hpos).1⟩

theorem ReqOk.alignedBase_eq (h : ReqOk s size align) (hi : s.Inv) (hm : dm ∈ s.lstFree) :
    alignedBase dm (pageAlignOf align) = firstMultiple dm.base (pageAlignOf align) := by
  have hb := h.free_bounds hi hm
  have hw := h.noWrap
  have hlt : firstMultiple dm.base (pageAlignOf align) < dm.base + pageAlignOf align :=
    firstMultiple_lt (pageAlignOf_pos align)
  have hpos := pageAlignOf_pos align
  simp only [stop] at hb
  have hsum : wsub (wadd dm.base (pageAlignOf align)) 1 = dm.base + (pageAlignOf align - 1) := by
    simp only [wsub, wadd]
    omega
  rw [alignedBase, hsum]
  exact Nat.mod_eq_of_lt (by unfold firstMultiple at hlt; omega)

/-- The fit test is exact. -/
theorem ReqOk.fits_iff (h : ReqOk s size align) (hi : s.Inv) (hm : dm ∈ s.lstFree) :
    fits (pageAlignOf align) (pagesFor size * pageSize) dm = true ↔
      firstMultiple dm.base (pageAlignOf align) + pagesFor size * pageSize ≤ dm.stop := by
  have hb := h.free_bounds hi hm
  have hw := h.noWrap
  have hlt : firstMultiple dm.base (pageAlignOf align) < dm.base + pageAlignOf align :=
    firstMultiple_lt (pageAlignOf_pos align)
  have hpos := pageAlignOf_pos align
  rw [fits, decide_eq_true_eq, h.alignedBase_eq hi hm]
  simp only [stop] at hb ⊢
  rw [wadd_of_lt (by omega), wadd_of_lt (by omega)]

/-- A block has a slot exactly if it fits, and then its first multiple is the lowest. -/
theorem ReqOk.fits_of_slot (h : ReqOk s size align) (hi : s.Inv)
    (hm : dm ∈ s.lstFree) {a : Nat} (hdvd : pageAlignOf align ∣ a) (hle : dm.base ≤ a)
    (hfit : a + pagesFor size * pageSize ≤ dm.stop) :
    fits (pageAlignOf align) (pagesFor size * pageSize) dm = true := by
  have hfirst := firstMultiple_le (pageAlignOf_pos align) hdvd hle
  rw [h.fits_iff hi hm]
  omega

end Request

/-! ### First fit -/

/-- With both descriptors at hand the request fails only if no block fits. -/
theorem dmamemAlloc_eq_none_iff (s : Dmamem) (size align : Nat) :
    (dmamemAlloc s size align true true).1 = none ↔
      ∀ dm ∈ s.lstFree, fits (requestAlign align) (requestSize size) dm = false := by
  simp only [dmamemAlloc]
  generalize requestAlign align = al
  generalize requestSize size = need
  cases hd : s.lstFree.dropWhile (fun dm => !fits al need dm) with
  | nil =>
    have hall := List.dropWhile_eq_nil_iff.mp hd
    simpa using hall
  | cons dm post =>
    have hmem : dm ∈ s.lstFree :=
      List.dropWhile_subset _ (by rw [hd]; exact List.mem_cons_self)
    have hfit := List.head_dropWhile_not (fun dm => !fits al need dm)
      (by rw [hd]; exact List.cons_ne_nil _ _)
    simp only [hd, List.head_cons, Bool.not_eq_false'] at hfit
    simp only [Bool.true_eq_false, and_false, ↓reduceIte, reduceCtorEq, false_iff]
    intro hall
    rw [hall dm hmem] at hfit
    exact Bool.false_ne_true hfit

section Serve

variable {s : Dmamem} {size align : Nat} {ndmOk admOk : Bool}

/-- What an allocation that is served did: the request sits at the first multiple of the first
block that fits. -/
def Served (s : Dmamem) (size align : Nat) (ndmOk admOk : Bool) (a : Nat) : Prop :=
  ∃ pre dm post, s.lstFree = pre ++ dm :: post ∧
    s.lstFree.find? (fits (pageAlignOf align) (pagesFor size * pageSize)) = some dm ∧
    a = firstMultiple dm.base (pageAlignOf align) ∧
    a + pagesFor size * pageSize ≤ dm.stop ∧
    dmamemAlloc s size align ndmOk admOk = (some a, { s with
      lstFree := pre ++ ((if a ≠ dm.base then [⟨dm.base, a - dm.base⟩] else []) ++
        (if a + pagesFor size * pageSize < dm.stop then
          [⟨a + pagesFor size * pageSize, dm.stop - (a + pagesFor size * pageSize)⟩]
        else [])) ++ post
      lstUsed := ⟨a, pagesFor size * pageSize⟩ :: s.lstUsed })

theorem ReqOk.served (h : ReqOk s size align) (hi : s.Inv) {a : Nat}
    (ha : (dmamemAlloc s size align ndmOk admOk).1 = some a) :
    Served s size align ndmOk admOk a := by
  rcases alloc_cases s size align ndmOk admOk with hnone | ⟨pre, dm, post, hl, hf, he⟩
  · rw [hnone] at ha
    cases ha
  · rw [h.requestAlign_eq, h.requestSize_eq] at hf he
    have hm : dm ∈ s.lstFree := List.mem_of_find?_eq_some hf
    have hfits := List.find?_some hf
    have hroom := (h.fits_iff hi hm).mp hfits
    have hb := h.free_bounds hi hm
    have hw := hi.free_bounds hm hb.1
    rw [carve_at (h.alignedBase_eq hi hm) (le_firstMultiple (pageAlignOf_pos align)) hroom
      h.need_pos hw.2.1 hw.2.2] at he
    rw [he] at ha
    cases ha
    exact ⟨pre, dm, post, hl, hf, rfl, hroom, he⟩

theorem ReqOk.inv_alloc (h : ReqOk s size align) (hi : s.Inv) (ndmOk admOk : Bool) :
    (dmamemAlloc s size align ndmOk admOk).2.Inv := by
  rcases alloc_cases s size align ndmOk admOk with hnone | ⟨pre, dm, post, hl, hf, he⟩
  · rw [hnone]
    exact hi
  · rw [h.requestAlign_eq, h.requestSize_eq] at hf he
    have hm : dm ∈ s.lstFree := List.mem_of_find?_eq_some hf
    have hroom := (h.fits_iff hi hm).mp (List.find?_some hf)
    rw [he]
    exact (alloc_served hi hl h.need_pos (h.alignedBase_eq hi hm)
      (le_firstMultiple (pageAlignOf_pos align)) hroom).2

/-- The address that is returned is a slot, and the lowest one. -/
theorem ReqOk.lowest (h : ReqOk s size align) (hi : s.Inv) {a : Nat}
    (ha : (dmamemAlloc s size align ndmOk admOk).1 = some a) :
    Slot s (pageAlignOf align) (pagesFor size * pageSize) a ∧
      ∀ b, Slot s (pageAlignOf align) (pagesFor size * pageSize) b → a ≤ b := by
  obtain ⟨-, dm, -, -, hf, hfirst, hroom, -⟩ := h.served hi ha
  have hm : dm ∈ s.lstFree := List.mem_of_find?_eq_some hf
  have hle : dm.base ≤ firstMultiple dm.base (pageAlignOf align) :=
    le_firstMultiple (pageAlignOf_pos align)
  rw [← hfirst] at hle
  constructor
  · apply And.intro
    · rw [hfirst]
      exact Nat.dvd_mul_left _ _
    · exact ⟨dm, hm, hle, hroom⟩
  · rintro b ⟨hdvd, dm', hm', hle', hfit'⟩
    obtain ⟨-, before, behind, hl, hbefore⟩ := List.find?_eq_some_iff_append.mp hf
    have hap := hi.apart
    rw [hl] at hm' hap
    -- blocks before the one that was taken do not fit, those behind it start above its end
    rcases List.mem_append.mp hm' with hin | hin
    · have hno := hbefore dm' hin
      rw [h.fits_of_slot hi (hl ▸ List.mem_append_left _ hin) hdvd hle' hfit'] at hno
      cases hno
    · rcases List.mem_cons.mp hin with rfl | hin
      · rw [hfirst]
        exact firstMultiple_le (pageAlignOf_pos align) hdvd hle'
      · have hgap := (List.pairwise_cons.mp (List.pairwise_append.mp hap).2.1).1 dm' hin
        omega

/-- With both descriptors at hand the request fails exactly if there is no slot. -/
theorem ReqOk.none_iff (h : ReqOk s size align) (hi : s.Inv) :
    (dmamemAlloc s size align true true).1 = none ↔
      ¬ ∃ a, Slot s (pageAlignOf align) (pagesFor size * pageSize) a := by
  rw [dmamemAlloc_eq_none_iff, h.requestAlign_eq, h.requestSize_eq]
  constructor
  · rintro hall ⟨a, hdvd, dm, hm, hle, hfit⟩
    have hno := hall dm hm
    rw [h.fits_of_slot hi hm hdvd hle hfit] at hno
    cases hno
  · intro hslot dm hm
    apply Bool.eq_false_iff.mpr
    intro hfits
    apply hslot
    exact ⟨_, Nat.dvd_mul_left _ _, dm, hm, le_firstMultiple (pageAlignOf_pos align),
      (h.fits_iff hi hm).mp hfits⟩

end Serve

/-! ### Freeing what was allocated -/

theorem takeWhile_split {p : DmDsc → Bool} {l m : List DmDsc} (hl : ∀ f ∈ l, p f = true)
    (hm : ∀ f ∈ m, p f = false) :
    (l ++ m).takeWhile p = l ∧ (l ++ m).dropWhile p = m := by
  rw [List.takeWhile_append_of_pos hl, List.dropWhile_append_of_pos hl]
  cases m with
  | nil => simp
  | cons f m =>
    have hf := hm f List.mem_cons_self
    simp [hf]

section Undo

variable {pre post : List DmDsc} {dm : DmDsc} {a need : Nat}

/-- The remainder behind the request, if any, is joined again. -/
theorem joinNext_behind (hap : Apart (dm :: post)) (hfit : a + need ≤ dm.stop)
    (hend : dm.stop < 4294967296) :
    joinNext ⟨a, need⟩
        ((if a + need < dm.stop then [⟨a + need, dm.stop - (a + need)⟩] else []) ++ post) =
      ⟨a, dm.stop - a⟩ :: post := by
  have hsum : wadd a need = a + need := wadd_of_lt (by omega)
  by_cases hlt : a + need < dm.stop
  · have hsize : wadd need (dm.stop - (a + need)) = dm.stop - a := by
      rw [wadd_of_lt (by omega)]
      omega
    rw [if_pos hlt]
    simp only [List.cons_append, List.nil_append, joinNext, hsum, ↓reduceIte, hsize]
  · have hneed : need = dm.stop - a := by omega
    rw [if_neg hlt, List.nil_append]
    cases post with
    | nil => rw [joinNext, hneed]
    | cons next post =>
      have hgap := (List.pairwise_cons.mp hap).1 next List.mem_cons_self
      have hne : wadd a need ≠ next.base := by omega
      rw [joinNext, if_neg hne, ← hneed]

/-- So is the remainder before it, and the block is whole again. -/
theorem joinPrev_before (hap : Apart (pre ++ dm :: post)) (ha : dm.base ≤ a) (hle : a ≤ dm.stop)
    (hend : dm.stop < 4294967296) :
    joinPrev (pre ++ if a ≠ dm.base then [⟨dm.base, a - dm.base⟩] else [])
        (⟨a, dm.stop - a⟩ :: post) = pre ++ dm :: post := by
  have hstop : dm.stop = dm.base + dm.size := rfl
  by_cases hne : a ≠ dm.base
  · have hsum : wadd dm.base (a - dm.base) = a := by
      rw [wadd_of_lt (by omega)]
      omega
    have hsize : wadd (a - dm.base) (dm.stop - a) = dm.size := by
      rw [wadd_of_lt (by omega)]
      omega
    rw [if_pos hne]
    simp only [joinPrev, List.getLast?_append, List.getLast?_singleton, Option.some_or, hsum,
      ↓reduceIte, List.dropLast_concat, hsize]
  · have heq : a = dm.base := by omega
    have hdm : (⟨a, dm.stop - a⟩ : DmDsc) = dm := by
      cases dm
      simp only [Block.mk.injEq] at *
      omega
    rw [if_neg hne, List.append_nil, hdm]
    rcases List.eq_nil_or_concat pre with rfl | ⟨init, prev, rfl⟩
    · rfl
    · rw [List.concat_eq_append] at *
      have hgap := (List.pairwise_append.mp hap).2.2 prev (by simp) dm List.mem_cons_self
      have hpe : prev.stop = prev.base + prev.size := rfl
      have hprev : wadd prev.base prev.size ≠ dm.base := by
        rw [wadd_of_lt (by omega)]
        omega
      simp only [joinPrev, List.getLast?_append, List.getLast?_singleton, Option.some_or,
        if_neg hprev]

theorem before_lt (hap : Apart (pre ++ dm :: post)) (ha : dm.base ≤ a) :
    ∀ f ∈ pre ++ (if a ≠ dm.base then [⟨dm.base, a - dm.base⟩] else []),
      decide (f.base < a) = true := by
  intro f hf
  apply decide_eq_true
  rcases List.mem_append.mp hf with hf | hf
  · have hgap := (List.pairwise_append.mp hap).2.2 f hf dm List.mem_cons_self
    simp only [stop] at hgap
    omega
  · split at hf
    next hne =>
      rw [List.mem_singleton.mp hf]
      dsimp only
      omega
    next => cases hf

theorem behind_not_lt (hap : Apart (pre ++ dm :: post)) (hfit : a + need ≤ dm.stop) :
    ∀ f ∈ (if a + need < dm.stop then [⟨a + need, dm.stop - (a + need)⟩] else []) ++ post,
      decide (f.base < a) = false := by
  intro f hf
  apply decide_eq_false
  rcases List.mem_append.mp hf with hf | hf
  · split at hf
    next =>
      rw [List.mem_singleton.mp hf]
      dsimp only
      omega
    next => cases hf
  · have hgap := (List.pairwise_cons.mp (List.pairwise_append.mp hap).2.1).1 f hf
    omega

end Undo

/-- Freeing the address just allocated gives the pool as it was. -/
theorem ReqOk.free_alloc {s : Dmamem} {size align : Nat} (h : ReqOk s size align) (hi : s.Inv)
    {ndmOk admOk : Bool} {a : Nat} (ha : (dmamemAlloc s size align ndmOk admOk).1 = some a) :
    dmamemFree (dmamemAlloc s size align ndmOk admOk).2 a = s := by
  obtain ⟨pre, dm, post, hl, hf, hfirst, hroom, he⟩ := h.served hi ha
  have hm : dm ∈ s.lstFree := List.mem_of_find?_eq_some hf
  have hb := h.free_bounds hi hm
  have hw := h.noWrap
  have hneed := h.need_pos
  have hap := hi.apart
  have hbase : dm.base ≤ a := hfirst ▸ le_firstMultiple (pageAlignOf_pos align)
  rw [hl] at hap
  rw [he]
  generalize pagesFor size * pageSize = need at *
  have hsplit := takeWhile_split (p := fun f => decide (f.base < a))
    (l := pre ++ if a ≠ dm.base then [⟨dm.base, a - dm.base⟩] else [])
    (m := (if a + need < dm.stop then [⟨a + need, dm.stop - (a + need)⟩] else []) ++ post)
    (before_lt hap hbase) (behind_not_lt hap hroom)
  unfold dmamemFree
  simp only [List.find?_cons, beq_self_eq_true, List.eraseP_cons_of_pos, List.append_assoc]
  rw [← List.append_assoc pre, hsplit.1, hsplit.2,
    joinNext_behind (List.pairwise_append.mp hap).2.1 hroom (by omega),
    joinPrev_before hap hbase (by omega) (by omega), ← hl]

/-! ### Whole runs -/

/-- One call into the pool, with any alignment. -/
inductive DmRequest
  | alloc (size align : Nat) (ndmOk admOk : Bool)
  | free (base : Nat)
  deriving DecidableEq, Repr

namespace DmPool

/-- The pool after one call. -/
def step (p : DmPool) : DmRequest → DmPool
  | .alloc size align ndmOk admOk => (p.alloc size align ndmOk admOk).2
  | .free base => p.free base

/-- Requests are as in `ReqOk`; any address may be freed. -/
def StepOk (p : DmPool) : DmRequest → Prop
  | .alloc size align _ _ => ReqOk p.dm size align
  | .free _ => True

/-- All runs of the pool from a successful `dm_init`. -/
def system : System DmPool DmRequest where
  init p := ∃ dmBase dmSzAll dmSzFb, AreaOk dmBase dmSzAll dmSzFb ∧ p = init dmBase dmSzAll dmSzFb
  step p r := some (p.step r)

/-- A request gets the lowest slot, and nothing only if there is none. -/
structure FirstFit (p : DmPool) (size align : Nat) : Prop where
  none_iff : (p.alloc size align true true).1 = none ↔
    ¬ ∃ a, Slot p.dm (pageAlignOf align) (pagesFor size * pageSize) a
  lowest : ∀ a, (p.alloc size align true true).1 = some a →
    Slot p.dm (pageAlignOf align) (pagesFor size * pageSize) a ∧
      ∀ b, Slot p.dm (pageAlignOf align) (pagesFor size * pageSize) b → a ≤ b

theorem noLeak_alloc {p : DmPool} (h : p.NoLeak) (size align : Nat) (ndmOk admOk : Bool) :
    (p.alloc size align ndmOk admOk).2.NoLeak := by
  have hcount := allocDescriptors_eq p.dm size align ndmOk admOk
  unfold NoLeak alloc at *
  dsimp only
  omega

theorem noLeak_free {p : DmPool} (h : p.NoLeak) (base : Nat) : (p.free base).NoLeak := by
  have hcount := freeDescriptors_eq p.dm base
  unfold NoLeak free at *
  dsimp only
  omega

theorem noLeak_init (dmBase dmSzAll dmSzFb : Nat) : (init dmBase dmSzAll dmSzFb).NoLeak := by
  unfold NoLeak init dmInit
  by_cases hz : dmSzAll = 0
  · simp [hz]
  · simp [hz]

/-- Pools without leaks are equal if their lists are. -/
theorem NoLeak.ext {p q : DmPool} (hp : p.NoLeak) (hq : q.NoLeak) (h : p.dm = q.dm) : p = q := by
  cases p
  cases q
  unfold NoLeak at *
  dsimp only at *
  subst h
  rw [hp, hq]

/-- The lists partition the area and hold all descriptors. -/
structure PoolInv (p : DmPool) : Prop where
  lists : p.dm.Inv
  noLeak : p.NoLeak

theorem reach_poolInv {p : DmPool} (h : system.Reach StepOk p) : p.PoolInv := by
  refine h.invariant ?_ ?_
  · rintro p ⟨dmBase, dmSzAll, dmSzFb, hok, rfl⟩
    exact ⟨inv_dmInit hok, noLeak_init dmBase dmSzAll dmSzFb⟩
  · intro p r p' hi ok he
    cases he
    cases r with
    | alloc size align ndmOk admOk =>
      exact ⟨ReqOk.inv_alloc ok hi.lists ndmOk admOk, noLeak_alloc hi.noLeak size align ndmOk admOk⟩
    | free base => exact ⟨inv_dmamemFree hi.lists base, noLeak_free hi.noLeak base⟩

/-- A request that gets nothing changes nothing. -/
theorem alloc_none {p : DmPool} (h : p.NoLeak) {size align : Nat} {ndmOk admOk : Bool}
    (hnone : (p.alloc size align ndmOk admOk).1 = none) :
    (p.alloc size align ndmOk admOk).2 = p := by
  apply NoLeak.ext (noLeak_alloc h size align ndmOk admOk) h
  rcases alloc_cases p.dm size align ndmOk admOk with he | ⟨pre, dm, post, -, -, he⟩
  · simp only [alloc, he]
  · simp only [alloc, he] at hnone
    cases hnone

theorem free_unknown (p : DmPool) {base : Nat} (h : ∀ b ∈ p.dm.lstUsed, b.base ≠ base) :
    p.free base = p := by
  have hf : p.dm.lstUsed.find? (fun dm => dm.base == base) = none := by
    simpa using h
  simp only [free, dmamemFree, freeDescriptors, hf, Int.sub_zero]

end DmPool

open DmPool

/-- In every run each request gets the lowest slot there is, a request that gets nothing changes
nothing, and freeing undoes an allocation. -/
theorem dmamem_first_fit {p : DmPool} (h : system.Reach StepOk p) :
    p.NoLeak ∧
      (∀ size align, ReqOk p.dm size align → FirstFit p size align) ∧
      (∀ size align ndmOk admOk, (p.alloc size align ndmOk admOk).1 = none →
        (p.alloc size align ndmOk admOk).2 = p) ∧
      (∀ base, (∀ b ∈ p.dm.lstUsed, b.base ≠ base) → p.free base = p) ∧
      ∀ size align ndmOk admOk base, ReqOk p.dm size align →
        (p.alloc size align ndmOk admOk).1 = some base →
          (p.alloc size align ndmOk admOk).2.free base = p := by
  obtain ⟨hi, hleak⟩ := reach_poolInv h
  refine ⟨hleak, ?_, ?_, ?_, ?_⟩
  · intro size align hok
    exact ⟨hok.none_iff hi, fun a ha => hok.lowest hi ha⟩
  · intro size align ndmOk admOk hnone
    exact alloc_none hleak hnone
  · intro base hbase
    exact free_unknown p hbase
  · intro size align ndmOk admOk base hok hsome
    apply NoLeak.ext (noLeak_free (noLeak_alloc hleak size align ndmOk admOk) base) hleak
    exact hok.free_alloc hi hsome

/-- The small pool after an 8 KiB aligned request, which cuts its block in three. -/
theorem dmamem_first_fit_split :
    FirstFit ((init 0x60000000 0x10000 0x1000).alloc 5000 8192 true true).2 4096 0 ∧
      (((init 0x60000000 0x10000 0x1000).alloc 5000 8192 true true).2.alloc 4096 0 true true).1 =
        some 0x60001000 := by
  have hok : ReqOk (init 0x60000000 0x10000 0x1000).dm 5000 8192 :=
    ⟨by decide, by decide, by decide⟩
  have hr : system.Reach StepOk ((init 0x60000000 0x10000 0x1000).alloc 5000 8192 true true).2 :=
    .step (a := .alloc 5000 8192 true true)
      (.init ⟨0x60000000, 0x10000, 0x1000, ⟨rfl, by decide, by decide, by decide⟩, rfl⟩) hok rfl
  exact ⟨(dmamem_first_fit hr).2.1 4096 0 ⟨by decide, by decide, by decide⟩, by decide +kernel⟩

end LinuxStm32.Mm
