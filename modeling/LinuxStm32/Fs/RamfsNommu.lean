import LinuxStm32.Mm.NommuPages

/-!
# Contiguous ramfs files

Model of `ramfs_nommu_expand_for_mapping`, `fs/ramfs/file-nommu.c:61–122`, with the functions it
calls: `split_page`, `mm/page_alloc.c:1152`, `add_to_page_cache_locked`, `mm/filemap.c:396`, and
`inode_newsize_ok`, `fs/attr.c:80`. Pages have numbers; a page that was handed out has a reference
count and a free page has none. `bad` records that a page was used that was not handed out. The
reference that a list of new pages of the LRU holds for a while is left out.
-/

namespace LinuxStm32.Fs

open Base Mm

/-- The reference counts of the pages that were handed out. -/
structure PageRefs where
  count : Nat → Option Nat
  bad : Bool

/-- The part of `struct inode` and its mapping that holds the pages. -/
structure RamfsInode where
  iSize : Nat
  pageTree : Nat → Option Nat
  nrpages : Nat

/-- An inode and the pages. -/
structure RamfsMem where
  inode : RamfsInode
  refs : PageRefs

namespace PageRefs

variable (r : PageRefs)

/-- `page_cache_get`. -/
def get (p : Nat) : PageRefs :=
  match r.count p with
  | some c => { r with count := Function.update r.count p (some (c + 1)) }
  | none => { r with bad := true }

/-- `__free_page` and `page_cache_release`: the last reference frees the page. -/
def put (p : Nat) : PageRefs :=
  match r.count p with
  | some 1 => { r with count := Function.update r.count p none }
  | some (c + 2) => { r with count := Function.update r.count p (some (c + 1)) }
  | _ => { r with bad := true }

/-- `alloc_pages`: only the first page of the block has a reference. -/
def alloc (base order : Nat) : PageRefs :=
  { r with
    count := fun p =>
      if base ≤ p ∧ p < base + 2 ^ order then some (if p = base then 1 else 0) else r.count p }

/-- `split_page`, `mm/page_alloc.c:1152`: every other page gets a reference. -/
def split (base order : Nat) : PageRefs :=
  { r with count := fun p => if base < p ∧ p < base + 2 ^ order then some 1 else r.count p }

/-- Free `n` pages from `p` on, one by one. -/
def putAll : Nat → Nat → PageRefs → PageRefs
  | 0, _, r => r
  | n + 1, p, r => putAll n (p + 1) (r.put p)

end PageRefs

/-- How `add_to_page_cache_locked` ends; an error has a number. -/
inductive AddOutcome
  | added
  | charge (e : Nat)
  | preload (e : Nat)
  | insert (e : Nat)
  deriving DecidableEq, Repr

/-- `add_to_page_cache_locked`, `mm/filemap.c:396`. -/
def addToPageCache (s : RamfsMem) (page offset : Nat) : AddOutcome → Int × RamfsMem
  | .added =>
    (0, { s with
      refs := s.refs.get page
      inode := { s.inode with
        pageTree := Function.update s.inode.pageTree offset (some page)
        nrpages := s.inode.nrpages + 1 } })
  | .charge e => (Int.negSucc e, s)
  | .preload e => (Int.negSucc e, s)
  | .insert e => (Int.negSucc e, { s with refs := (s.refs.get page).put page })

/-- The loop that attaches the pages to the inode, with its error exit,
`fs/ramfs/file-nommu.c:102–121`; `n` pages are left. -/
def attachPages (base : Nat) (adds : Nat → AddOutcome) : Nat → Nat → RamfsMem → Int × RamfsMem
  | 0, _, s => (0, s)
  | n + 1, loop, s =>
    let r := addToPageCache s (base + loop) loop (adds loop)
    if r.1 < 0 then (r.1, { r.2 with refs := r.2.refs.putAll (n + 1) (base + loop) })
    else attachPages base adds n (loop + 1) r.2

/-- What limits the size of a file. -/
structure SizeLimits where
  rlimit : Option Nat
  maxBytes : Nat
  swapfile : Bool

/-- `inode_newsize_ok`, `fs/attr.c:80`. -/
def inodeNewsizeOk (limits : SizeLimits) (size offset : Nat) : Int :=
  if size < offset then
    if limits.rlimit.any (· < offset) then -27
    else if limits.maxBytes < offset then -27
    else 0
  else if limits.swapfile then -26
  else 0

/-- `MAX_ORDER`, `arch/arm/Kconfig:1068`. -/
def maxOrder : Nat := 12

/-- The pages a file of `size` bytes has. -/
def npagesOf (size : Nat) : Nat := wadd size (pageSize - 1) / pageSize

/-- `ramfs_nommu_expand_for_mapping`, `fs/ramfs/file-nommu.c:61`. `block` is what `alloc_pages`
returns, `adds` how each page is added to the page cache. -/
def ramfsNommuExpandForMapping (limits : SizeLimits) (s : RamfsMem) (newsize : Nat)
    (block : Option Nat) (adds : Nat → AddOutcome) : Int × RamfsMem :=
  let order := getOrder newsize
  if maxOrder ≤ order then (-27, s)
  else if inodeNewsizeOk limits s.inode.iSize newsize ≠ 0 then
    (inodeNewsizeOk limits s.inode.iSize newsize, s)
  else
    let s := { s with inode := { s.inode with iSize := newsize } }
    match block with
    | none => (-12, s)
    | some base =>
      let npages := npagesOf newsize
      let refs := (s.refs.alloc base order).split base order
      let refs := refs.putAll (2 ^ order - npages) (base + npages)
      attachPages base adds npages 0 { s with refs := refs }

/-! ### What the loops do -/

namespace PageRefs

variable {r : PageRefs}

theorem put_of_one {p : Nat} (h : r.count p = some 1) :
    r.put p = { r with count := Function.update r.count p none } := by
  rw [put, h]

/-- Freeing pages with one reference each frees exactly these. -/
theorem putAll_held {n p : Nat} (h : ∀ k, p ≤ k → k < p + n → r.count k = some 1) :
    r.putAll n p = { r with count := fun k => if p ≤ k ∧ k < p + n then none else r.count k } := by
  induction n generalizing p r with
  | zero =>
    have hnone : ∀ k, ¬ (p ≤ k ∧ k < p + 0) := by omega
    simp only [putAll, hnone, if_false]
  | succ n ih =>
    rw [putAll, put_of_one (h p (Nat.le_refl p) (by omega)), ih]
    · congr 1
      funext k
      by_cases hk : k = p
      · rw [if_neg (by omega), if_pos (by omega), hk]
        exact Function.update_self p none r.count
      · by_cases hin : p + 1 ≤ k ∧ k < p + 1 + n
        · rw [if_pos hin, if_pos (by omega)]
        · rw [if_neg hin, if_neg (by omega)]
          exact Function.update_of_ne hk none r.count
    · intro k hk hlt
      show Function.update r.count p none k = some 1
      rw [Function.update_of_ne (by omega)]
      exact h k (by omega) (by omega)

theorem get_of_some {p c : Nat} (h : r.count p = some c) :
    r.get p = { r with count := Function.update r.count p (some (c + 1)) } := by
  rw [get, h]

/-- A reference that is taken and dropped again changes nothing. -/
theorem put_get {p c : Nat} (h : r.count p = some (c + 1)) : (r.get p).put p = r := by
  rw [get_of_some h, put]
  simp only [Function.update_self, Function.update_idem]
  rw [← h, Function.update_eq_self]

end PageRefs

/-- Pages `lo ≤ k < hi` of the block are in the page cache, with the reference of the cache and the
one they were allocated with. -/
def RamfsMem.Cached (base lo hi : Nat) (s : RamfsMem) : Prop :=
  ∀ k, lo ≤ k → k < hi → s.refs.count (base + k) = some 2 ∧ s.inode.pageTree k = some (base + k)

/-- Nothing but pages `lo ≤ k < hi` of the block and their places in the cache has changed. -/
structure RamfsMem.SameBut (base lo hi : Nat) (s s' : RamfsMem) : Prop where
  iSize : s'.inode.iSize = s.inode.iSize
  count : ∀ p, p < base + lo ∨ base + hi ≤ p → s'.refs.count p = s.refs.count p
  pageTree : ∀ k, k < lo ∨ hi ≤ k → s'.inode.pageTree k = s.inode.pageTree k
  bad : s'.refs.bad = s.refs.bad

/-- A page is added with a second reference, or nothing happens. -/
private theorem addToPageCache_case {s : RamfsMem} {page : Nat} (offset : Nat) (o : AddOutcome)
    (h : s.refs.count page = some 1) :
    (addToPageCache s page offset o = (0, { s with
        refs := { s.refs with count := Function.update s.refs.count page (some 2) }
        inode := { s.inode with
          pageTree := Function.update s.inode.pageTree offset (some page)
          nrpages := s.inode.nrpages + 1 } })) ∨
      ∃ e, addToPageCache s page offset o = (Int.negSucc e, s) := by
  cases o with
  | added =>
    refine .inl ?_
    rw [addToPageCache, PageRefs.get_of_some h]
  | charge e => exact .inr ⟨e, rfl⟩
  | preload e => exact .inr ⟨e, rfl⟩
  | insert e =>
    refine .inr ⟨e, ?_⟩
    rw [addToPageCache, PageRefs.put_get h]

/-- The loop attaches all pages, or those before one that fails and frees the others. -/
theorem attachPages_spec {base : Nat} (adds : Nat → AddOutcome) {n loop : Nat} {s : RamfsMem}
    (h : ∀ k, loop ≤ k → k < loop + n → s.refs.count (base + k) = some 1) :
    s.SameBut base loop (loop + n) (attachPages base adds n loop s).2 ∧
      ((attachPages base adds n loop s).1 = 0 ∧
          (attachPages base adds n loop s).2.Cached base loop (loop + n) ∨
        (attachPages base adds n loop s).1 < 0 ∧ ∃ j, loop ≤ j ∧ j < loop + n ∧
          (attachPages base adds n loop s).2.Cached base loop j ∧
          ∀ k, j ≤ k → k < loop + n →
            (attachPages base adds n loop s).2.refs.count (base + k) = none) := by
  induction n generalizing loop s with
  | zero =>
    refine ⟨⟨rfl, fun _ _ => rfl, fun _ _ => rfl, rfl⟩, .inl ⟨rfl, fun k hk hlt => ?_⟩⟩
    omega
  | succ n ih =>
    rw [attachPages]
    rcases addToPageCache_case loop (adds loop) (h loop (Nat.le_refl _) (by omega))
      with hadd | ⟨e, hadd⟩
    · rw [hadd]
      dsimp only
      rw [if_neg (Int.lt_irrefl 0)]
      generalize hs1 : ({ s with
        refs := { s.refs with count := Function.update s.refs.count (base + loop) (some 2) }
        inode := { s.inode with
          pageTree := Function.update s.inode.pageTree loop (some (base + loop))
          nrpages := s.inode.nrpages + 1 } } : RamfsMem) = s1
      have hcount : s1.refs.count = Function.update s.refs.count (base + loop) (some 2) := by
        rw [← hs1]
      have htree : s1.inode.pageTree =
          Function.update s.inode.pageTree loop (some (base + loop)) := by
        rw [← hs1]
      have hone : ∀ k, loop + 1 ≤ k → k < loop + 1 + n → s1.refs.count (base + k) = some 1 := by
        intro k hk hlt
        rw [hcount, Function.update_of_ne (by omega)]
        exact h k (by omega) (by omega)
      obtain ⟨hsame, hres⟩ := ih hone
      have hend : loop + 1 + n = loop + (n + 1) := by omega
      rw [hend] at hsame hres
      -- The page just added is left alone by the rest of the loop.
      have hfirst : (attachPages base adds n (loop + 1) s1).2.refs.count (base + loop) = some 2 ∧
          (attachPages base adds n (loop + 1) s1).2.inode.pageTree loop = some (base + loop) := by
        rw [hsame.count _ (by omega), hsame.pageTree _ (by omega), hcount, htree]
        exact ⟨Function.update_self _ _ _, Function.update_self _ _ _⟩
      have hcached : ∀ hi, (attachPages base adds n (loop + 1) s1).2.Cached base (loop + 1) hi →
          (attachPages base adds n (loop + 1) s1).2.Cached base loop hi := by
        intro hi hc k hk hlt
        by_cases hkl : k = loop
        · rw [hkl]
          exact hfirst
        · exact hc k (by omega) hlt
      refine ⟨⟨?_, fun p hp => ?_, fun k hk => ?_, ?_⟩, ?_⟩
      · rw [hsame.iSize, ← hs1]
      · rw [hsame.count p (by omega), hcount, Function.update_of_ne (by omega)]
      · rw [hsame.pageTree k (by omega), htree, Function.update_of_ne (by omega)]
      · rw [hsame.bad, ← hs1]
      · rcases hres with ⟨h0, hc⟩ | ⟨hneg, j, hj, hjn, hc, hfree⟩
        · exact .inl ⟨h0, hcached _ hc⟩
        · exact .inr ⟨hneg, j, by omega, hjn, hcached _ hc, hfree⟩
    · rw [hadd]
      dsimp only
      have hheld : ∀ k, base + loop ≤ k → k < base + loop + (n + 1) → s.refs.count k = some 1 := by
        intro k hk hlt
        obtain ⟨d, rfl⟩ := Nat.exists_eq_add_of_le (show base ≤ k by omega)
        exact h d (by omega) (by omega)
      rw [if_pos (Int.negSucc_lt_zero e), PageRefs.putAll_held hheld]
      refine ⟨⟨rfl, fun p hp => if_neg (by omega), fun _ _ => rfl, rfl⟩,
        .inr ⟨Int.negSucc_lt_zero e,
        loop, Nat.le_refl _, by omega, fun k hk hlt => ?_, fun k hk hlt => if_pos (by omega)⟩⟩
      omega

/-! ### Expanding an empty file -/

/-- The pages of a block are accounted for: after success each page of the file has the reference
of the cache alone and the rest of the block is free; after an error all but the cached pages
are free and the size is as it was. -/
structure ExpandOk (s s' : RamfsMem) (ret : Int) (newsize : Nat) (block : Option Nat) : Prop where
  done : ret = 0 → ∃ base, block = some base ∧
    (∀ k < npagesOf newsize, s'.inode.pageTree k = some (base + k) ∧
      s'.refs.count (base + k) = some 1 ∧ (s'.refs.put (base + k)).count (base + k) = none) ∧
    ∀ k, npagesOf newsize ≤ k → k < 2 ^ getOrder newsize → s'.refs.count (base + k) = none
  failed : ret ≠ 0 → s'.inode.iSize = s.inode.iSize ∧
    ∀ base, block = some base → ∀ k < 2 ^ getOrder newsize,
      s'.inode.pageTree k = some (base + k) ∨ s'.refs.count (base + k) = none

private theorem order_pos {newsize : Nat} (ho : getOrder newsize < maxOrder) : 0 < newsize := by
  refine Nat.pos_of_ne_zero fun h0 => ?_
  rw [h0] at ho
  exact absurd ho (by decide)

/-- The block is large enough for the file. -/
private theorem npagesOf_le {newsize : Nat} (h : newsize < 4294967296)
    (ho : getOrder newsize < maxOrder) :
    0 < npagesOf newsize ∧ npagesOf newsize ≤ 2 ^ getOrder newsize := by
  have hpos := order_pos ho
  have hle := le_getOrder hpos h
  have hpow : 2 ^ getOrder newsize ≤ 2 ^ 11 := Nat.pow_le_pow_right (by decide) (by
    rw [maxOrder] at ho
    omega)
  have hsmall : newsize ≤ 8388608 := by omega
  have hadd : wadd newsize (pageSize - 1) = newsize + 4095 := wadd_of_lt (by
    rw [pageSize]
    omega)
  rw [npagesOf, hadd, pageSize]
  omega

/-- After splitting and trimming, the pages of the file have one reference and the others are
free. -/
private theorem refs_trimmed {r : PageRefs} {base order n : Nat} (hn : n ≤ 2 ^ order) :
    (((r.alloc base order).split base order).putAll (2 ^ order - n) (base + n)).count =
      fun p => if base ≤ p ∧ p < base + n then some 1
        else if base ≤ p ∧ p < base + 2 ^ order then none else r.count p := by
  have hsplit : ((r.alloc base order).split base order).count =
      fun p => if base ≤ p ∧ p < base + 2 ^ order then some 1 else r.count p := by
    funext p
    simp only [PageRefs.split, PageRefs.alloc]
    by_cases hp : p = base
    · have hpos : 0 < 2 ^ order := Nat.two_pow_pos order
      rw [if_neg (by omega), if_pos (by omega), if_pos hp, if_pos (by omega)]
    · by_cases hin : base ≤ p ∧ p < base + 2 ^ order
      · rw [if_pos (by omega), if_pos hin]
      · rw [if_neg (by omega), if_neg hin, if_neg hin]
  have hheld : ∀ k, base + n ≤ k → k < base + n + (2 ^ order - n) →
      ((r.alloc base order).split base order).count k = some 1 := by
    intro k hk hlt
    rw [hsplit]
    exact if_pos (by omega)
  rw [PageRefs.putAll_held hheld, hsplit]
  funext p
  by_cases hin : base ≤ p ∧ p < base + n
  · rw [if_pos hin]
    exact (if_neg (by omega)).trans (if_pos (by omega))
  · rw [if_neg hin]
    by_cases hblock : base ≤ p ∧ p < base + 2 ^ order
    · rw [if_pos hblock]
      exact if_pos (by omega)
    · rw [if_neg hblock]
      exact (if_neg (by omega)).trans (if_neg hblock)

variable {limits : SizeLimits} {s : RamfsMem} {newsize : Nat}

private theorem expand_of_none (ho : getOrder newsize < maxOrder)
    (hok : inodeNewsizeOk limits s.inode.iSize newsize = 0) (adds : Nat → AddOutcome) :
    ramfsNommuExpandForMapping limits s newsize none adds =
      (-12, { s with inode := { s.inode with iSize := newsize } }) := by
  simp only [ramfsNommuExpandForMapping, if_neg (Nat.not_le.mpr ho), hok, ne_eq, not_true_eq_false,
    if_false]

private theorem expand_of_some (ho : getOrder newsize < maxOrder)
    (hok : inodeNewsizeOk limits s.inode.iSize newsize = 0) (base : Nat)
    (adds : Nat → AddOutcome) :
    ramfsNommuExpandForMapping limits s newsize (some base) adds =
      attachPages base adds (npagesOf newsize) 0
        { inode := { s.inode with iSize := newsize }
          refs := ((s.refs.alloc base (getOrder newsize)).split base (getOrder newsize)).putAll
            (2 ^ getOrder newsize - npagesOf newsize) (base + npagesOf newsize) } := by
  simp only [ramfsNommuExpandForMapping, if_neg (Nat.not_le.mpr ho), hok, ne_eq, not_true_eq_false,
    if_false]

/-- What the loop does with a block that was split and trimmed. -/
private theorem expand_block {inode : RamfsInode} {refs : PageRefs} {npages order base : Nat}
    (hle : npages ≤ 2 ^ order) (adds : Nat → AddOutcome) :
    ∀ r, attachPages base adds npages 0 ⟨inode, ((refs.alloc base order).split base order).putAll
        (2 ^ order - npages) (base + npages)⟩ = r →
      r.2.inode.iSize = inode.iSize ∧ ∃ j ≤ npages, (r.1 = 0 ↔ j = npages) ∧ r.2.Cached base 0 j ∧
        ∀ k, j ≤ k → k < 2 ^ order → r.2.refs.count (base + k) = none := by
  intro r hr
  generalize hs : (⟨inode, ((refs.alloc base order).split base order).putAll
    (2 ^ order - npages) (base + npages)⟩ : RamfsMem) = s at hr
  have hcount : s.refs.count = fun p =>
      if base ≤ p ∧ p < base + npages then some 1
      else if base ≤ p ∧ p < base + 2 ^ order then none else refs.count p := by
    rw [← hs]
    exact refs_trimmed hle
  have hone : ∀ k, 0 ≤ k → k < 0 + npages → s.refs.count (base + k) = some 1 := by
    intro k _ hk
    rw [hcount]
    exact if_pos (by omega)
  have hrest : ∀ k, npages ≤ k → k < 2 ^ order → s.refs.count (base + k) = none := by
    intro k hk hlt
    rw [hcount]
    exact (if_neg (by omega)).trans (if_pos (by omega))
  obtain ⟨hsame, hres⟩ := attachPages_spec adds hone
  rw [Nat.zero_add, hr] at hsame hres
  refine ⟨?_, ?_⟩
  · rw [hsame.iSize, ← hs]
  · rcases hres with ⟨h0, hc⟩ | ⟨hneg, j, _, hj, hc, hfree⟩
    · refine ⟨npages, Nat.le_refl _, ⟨fun _ => rfl, fun _ => h0⟩, hc, fun k hk hlt => ?_⟩
      rw [hsame.count _ (by omega)]
      exact hrest k hk hlt
    · refine ⟨j, Nat.le_of_lt hj, ⟨fun h0 => absurd h0 (Int.ne_of_lt hneg), fun he => by omega⟩, hc,
        fun k hk hlt => ?_⟩
      by_cases hkn : k < npages
      · exact hfree k hk hkn
      · rw [hsame.count _ (by omega)]
        exact hrest k (by omega) hlt

/-- A call that is not refused publishes the size first. With a block it caches all pages, each
with two references, or those before one that fails; the rest of the block is freed. -/
theorem expand_spec (h : newsize < 4294967296) (ho : getOrder newsize < maxOrder)
    (hok : inodeNewsizeOk limits s.inode.iSize newsize = 0) (block : Option Nat)
    (adds : Nat → AddOutcome) :
    (ramfsNommuExpandForMapping limits s newsize block adds).2.inode.iSize = newsize ∧
      ∀ base, block = some base → ∃ j ≤ npagesOf newsize,
        ((ramfsNommuExpandForMapping limits s newsize block adds).1 = 0 ↔ j = npagesOf newsize) ∧
        (ramfsNommuExpandForMapping limits s newsize block adds).2.Cached base 0 j ∧
        ∀ k, j ≤ k → k < 2 ^ getOrder newsize →
          (ramfsNommuExpandForMapping limits s newsize block adds).2.refs.count (base + k) =
            none := by
  obtain ⟨_, hle⟩ := npagesOf_le h ho
  cases block with
  | none =>
    rw [expand_of_none ho hok]
    exact ⟨rfl, nofun⟩
  | some base =>
    rw [expand_of_some ho hok]
    obtain ⟨hsize, hpages⟩ := expand_block hle adds _ rfl
    refine ⟨hsize, fun base' hb => ?_⟩
    obtain rfl : base = base' := Option.some.inj hb
    exact hpages

/-- The pages of an expanded empty file are accounted for exactly if the call is refused before it
does anything. -/
theorem expand_accounts_iff (hsize : s.inode.iSize = 0) (h : newsize < 4294967296)
    {block : Option Nat} (hfree : ∀ base, block = some base → ∀ k < 2 ^ getOrder newsize,
      s.refs.count (base + k) = none) (adds : Nat → AddOutcome) :
    ExpandOk s (ramfsNommuExpandForMapping limits s newsize block adds).2
        (ramfsNommuExpandForMapping limits s newsize block adds).1 newsize block ↔
      maxOrder ≤ getOrder newsize ∨ inodeNewsizeOk limits 0 newsize ≠ 0 := by
  constructor
  · intro hexp
    by_contra hnot
    obtain ⟨ho, hok⟩ := not_or.mp hnot
    have ho := Nat.not_le.mp ho
    have hok := not_not.mp hok
    rw [← hsize] at hok
    obtain ⟨hnew, hblock⟩ := expand_spec h ho hok block adds
    by_cases h0 : (ramfsNommuExpandForMapping limits s newsize block adds).1 = 0
    · -- Every page still has the reference it was allocated with.
      obtain ⟨base, hbase, hpages, _⟩ := hexp.done h0
      obtain ⟨j, _, hj, hcached, _⟩ := hblock base hbase
      have hpos := (npagesOf_le h ho).1
      have htwo := (hcached 0 (Nat.le_refl 0) (by rw [hj.mp h0]; exact hpos)).1
      rw [(hpages 0 hpos).2.1] at htwo
      cases htwo
    · have hpos := order_pos ho
      rw [(hexp.failed h0).1, hsize] at hnew
      omega
  · intro hrefused
    have hsame : (ramfsNommuExpandForMapping limits s newsize block adds).2 = s ∧
        (ramfsNommuExpandForMapping limits s newsize block adds).1 ≠ 0 := by
      rw [ramfsNommuExpandForMapping]
      dsimp only
      by_cases ho : maxOrder ≤ getOrder newsize
      · rw [if_pos ho]
        exact ⟨rfl, show (-27 : Int) ≠ 0 by decide⟩
      · have hok := hrefused.resolve_left ho
        rw [← hsize] at hok
        rw [if_neg ho, if_pos hok]
        exact ⟨rfl, hok⟩
    rw [hsame.1]
    refine ⟨fun h0 => absurd h0 hsame.2, fun _ => ⟨rfl, fun base hb k hk => .inr ?_⟩⟩
    exact hfree base hb k hk

/-- An empty file, and no page handed out. -/
def RamfsMem.empty : RamfsMem := ⟨⟨0, fun _ => none, 0⟩, ⟨fun _ => none, false⟩⟩

/-- No limit of the process, and the largest size of a ramfs file. -/
def SizeLimits.none : SizeLimits := ⟨.none, 8796093022207, false⟩

/-- A file of 32 MiB is refused, and nothing has happened to the block that was free for it. -/
theorem expand_accounts_refused :
    ExpandOk .empty (ramfsNommuExpandForMapping .none .empty 33554432 (some 8192) fun _ => .added).2
      (ramfsNommuExpandForMapping .none .empty 33554432 (some 8192) fun _ => .added).1 33554432
      (some 8192) :=
  (expand_accounts_iff rfl (by decide) (fun _ _ _ _ => rfl) _).mpr (.inl (by decide))

/-- A file of one page whose call succeeds: the page has two references. And without memory the
call fails, but the file has the new size. -/
theorem expand_leaks_page :
    (ramfsNommuExpandForMapping .none .empty 4096 (some 7) fun _ => .added).1 = 0 ∧
      (ramfsNommuExpandForMapping .none .empty 4096 (some 7) fun _ => .added).2.refs.count 7 =
        some 2 ∧
      ¬ ExpandOk .empty (ramfsNommuExpandForMapping .none .empty 4096 (some 7) fun _ => .added).2
        (ramfsNommuExpandForMapping .none .empty 4096 (some 7) fun _ => .added).1 4096 (some 7) ∧
      (ramfsNommuExpandForMapping .none .empty 4096 none fun _ => .added).1 = -12 ∧
      (ramfsNommuExpandForMapping .none .empty 4096 none fun _ => .added).2.inode.iSize = 4096 := by
  have htwo : (ramfsNommuExpandForMapping .none .empty 4096 (some 7)
      fun _ => .added).2.refs.count 7 = some 2 := by decide
  refine ⟨by decide, htwo, fun hok => ?_, by decide, by decide⟩
  obtain ⟨base, hbase, hpages, _⟩ := hok.done (by decide)
  obtain rfl : 7 = base := Option.some.inj hbase
  have hone := (hpages 0 (by decide)).2.1
  rw [Nat.add_zero, htwo] at hone
  exact absurd hone (by decide)

end LinuxStm32.Fs
