import LinuxStm32.Base.Loop
import LinuxStm32.Mm.PageAllocComplete

/-!
# Draining the per-CPU pages

Model of `mm/page_alloc.c:527–566`, `free_pcppages_bulk`: pages go from the per-CPU lists back to
the buddy allocator, from the lists in turn and from the tail of each. The loops are run with a
bound on their rounds. Taking an entry from an empty list gives no result; the source would take
the list's head for a page. The pages on these lists are single pages, so the test for compound
pages in `__free_one_page` does not apply to them.
-/

namespace LinuxStm32.Mm

open Base

/-- A page on a per-CPU list; its migrate type is kept in `page_private`. -/
structure PcpPage where
  pfn : Nat
  pagePrivate : MigrateType
  deriving DecidableEq, Repr

/-- `MIGRATE_PCPTYPES`, `include/linux/mmzone.h:41`. -/
def migratePcptypes : Nat := 3

/-- A zone with the per-CPU lists of one processor and the fields that draining writes. -/
structure PcpZone where
  lists : Nat → List PcpPage
  zone : Zone
  nrFreePages : Int
  allUnreclaimable : Bool
  pagesScanned : Nat

/-- All pages on the per-CPU lists. -/
def PcpZone.pages (s : PcpZone) : List PcpPage := (List.range migratePcptypes).flatMap s.lists

/-! ### The loops -/

/-- The list after list `t`, round robin. -/
def nextPcptype (t : Nat) : Nat := if t + 1 = migratePcptypes then 0 else t + 1

/-- One round of the search for a list that is not empty, over `migratetype` and `batch_free`. -/
def pcpSearchRound (lists : Nat → List PcpPage) (p : Nat × Nat) :
    Option (Nat × Nat ⊕ Nat × Nat) :=
  if lists (nextPcptype p.1) = [] then some (.inl (nextPcptype p.1, p.2 + 1))
  else some (.inr (nextPcptype p.1, p.2 + 1))

/-- `list_del` of the last entry of a list, and `__free_one_page` of it. -/
def pcpFreeLast (zr : ZoneRange) (migratetype : Nat) (page : PcpPage) (s : PcpZone) : PcpZone :=
  { s with
    lists := Function.update s.lists migratetype (s.lists migratetype).dropLast
    zone := freeOnePage zr s.zone page.pfn 0 page.pagePrivate false }

/-- The variables of the freeing loops: `count`, `batch_free`, and the state. -/
structure PcpBatch where
  count : Nat
  batchFree : Nat
  st : PcpZone

/-- One round of the loop that frees from one list. -/
def pcpFreeRound (zr : ZoneRange) (migratetype : Nat) (v : PcpBatch) :
    Option (PcpBatch ⊕ PcpBatch) :=
  match (v.st.lists migratetype).getLast? with
  | none => none
  | some page =>
    let st := pcpFreeLast zr migratetype page v.st
    if v.count - 1 = 0 then some (.inr ⟨0, v.batchFree, st⟩)
    else if v.batchFree - 1 = 0 then some (.inr ⟨v.count - 1, 0, st⟩)
    else if st.lists migratetype = [] then some (.inr ⟨v.count - 1, v.batchFree - 1, st⟩)
    else some (.inl ⟨v.count - 1, v.batchFree - 1, st⟩)

/-- One round of the outer loop, over `migratetype` and the other variables. -/
def pcpDrainRound (zr : ZoneRange) (fuel : Nat) (p : Nat × PcpBatch) :
    Option (Nat × PcpBatch ⊕ PcpZone) :=
  if p.2.count = 0 then some (.inr p.2.st)
  else
    (loop (pcpSearchRound p.2.st.lists) fuel (p.1, p.2.batchFree)).bind fun found =>
      (loop (pcpFreeRound zr found.1) fuel { p.2 with batchFree := found.2 }).map fun v =>
        .inl (found.1, v)

/-- `free_pcppages_bulk`, `mm/page_alloc.c:527`. -/
def freePcppagesBulk (zr : ZoneRange) (fuel count : Nat) (s : PcpZone) : Option PcpZone :=
  let s := { s with
    allUnreclaimable := false
    pagesScanned := 0
    nrFreePages := s.nrFreePages + count }
  loop (pcpDrainRound zr fuel) fuel (0, ⟨count, 0, s⟩)

/-! ### What moves -/

/-- The pages `freed`, in this order, went from the per-CPU lists to the buddy allocator. -/
structure PcpMoved (zr : ZoneRange) (s s' : PcpZone) (freed : List PcpPage) : Prop where
  pages : s.pages.Perm (freed ++ s'.pages)
  zone : s'.zone =
    freed.foldl (fun z page => freeOnePage zr z page.pfn 0 page.pagePrivate false) s.zone
  nrFreePages : s'.nrFreePages = s.nrFreePages

theorem PcpMoved.refl (zr : ZoneRange) (s : PcpZone) : PcpMoved zr s s [] :=
  ⟨.refl _, rfl, rfl⟩

theorem PcpMoved.trans {zr : ZoneRange} {s t u : PcpZone} {a b : List PcpPage}
    (h : PcpMoved zr s t a) (h' : PcpMoved zr t u b) : PcpMoved zr s u (a ++ b) where
  pages := by
    rw [List.append_assoc]
    exact h.pages.trans (h'.pages.append_left a)
  zone := by rw [List.foldl_append, ← h.zone, h'.zone]
  nrFreePages := h'.nrFreePages.trans h.nrFreePages

/-- What is freed and what is left add up. -/
theorem PcpMoved.length {zr : ZoneRange} {s s' : PcpZone} {freed : List PcpPage}
    (h : PcpMoved zr s s' freed) : s.pages.length = freed.length + s'.pages.length := by
  rw [h.pages.length_eq, List.length_append]

/-- Taking the last page of one of the lists moves this page. -/
theorem pcpFreeLast_moved (zr : ZoneRange) {s : PcpZone} {t : Nat} {page : PcpPage}
    (ht : t < migratePcptypes) (hlast : (s.lists t).getLast? = some page) :
    PcpMoved zr s (pcpFreeLast zr t page s) [page] where
  pages := by
    have hswap : (s.lists t).Perm (page :: (s.lists t).dropLast) := by
      obtain ⟨rest, hrest⟩ := List.getLast?_eq_some_iff.mp hlast
      rw [hrest, List.dropLast_concat]
      exact List.perm_append_singleton _ _
    have hrange : List.range migratePcptypes = [0, 1, 2] := rfl
    simp only [PcpZone.pages, pcpFreeLast, hrange, List.flatMap_cons, List.flatMap_nil,
      List.append_nil, List.singleton_append]
    have hcases : t = 0 ∨ t = 1 ∨ t = 2 := by
      unfold migratePcptypes at ht
      omega
    rcases hcases with rfl | rfl | rfl
    · simpa using hswap.append_right _
    · simpa using (hswap.append_right _).append_left (s.lists 0) |>.trans List.perm_middle
    · have h := (hswap.append_left (s.lists 1)).trans List.perm_middle
      simpa using (h.append_left (s.lists 0)).trans List.perm_middle
  zone := rfl
  nrFreePages := rfl

/-! ### The loops end -/

/-- Pages left on the lists are on one of them. -/
theorem PcpZone.exists_list {s : PcpZone} (h : 0 < s.pages.length) :
    ∃ t < migratePcptypes, s.lists t ≠ [] := by
  obtain ⟨page, hpage⟩ := List.exists_mem_of_length_pos h
  obtain ⟨t, ht, hmem⟩ := List.mem_flatMap.mp hpage
  exact ⟨t, List.mem_range.mp ht, List.ne_nil_of_mem hmem⟩

/-- The search finds a list within three rounds, and raises `batch_free`. -/
theorem pcpSearch_total {lists : Nat → List PcpPage} {t : Nat} (ht : t < migratePcptypes)
    (hne : lists t ≠ []) {fuel m b : Nat} (hm : m < migratePcptypes)
    (hfuel : migratePcptypes ≤ fuel) :
    ∃ r, loop (pcpSearchRound lists) fuel (m, b) = some r ∧
      r.1 < migratePcptypes ∧ lists r.1 ≠ [] ∧ 0 < r.2 := by
  unfold migratePcptypes at ht hm hfuel
  -- the rank is the number of rounds before the one that reaches list `t`
  apply loop_ranked (fun n p => p.1 < 3 ∧ n = (t + 2 - p.1) % 3) _ ⟨hm, rfl⟩ (by omega)
  rintro n ⟨m, b⟩ ⟨hm, rfl⟩
  dsimp only at hm
  have hnext : nextPcptype m = (m + 1) % 3 := by
    unfold nextPcptype migratePcptypes
    split_ifs <;> omega
  rw [pcpSearchRound, hnext]
  split_ifs with hempty
  · have hother : (m + 1) % 3 ≠ t := by
      intro heq
      exact hne (heq ▸ hempty)
    refine ⟨_, ?_, Nat.mod_lt _ (by decide), rfl⟩
    dsimp only
    omega
  · exact ⟨Nat.mod_lt _ (by decide), hempty, Nat.succ_pos b⟩

/-- Freeing from one list ends with at least one page freed and no more than `count`. -/
theorem pcpFree_total (zr : ZoneRange) {t : Nat} (ht : t < migratePcptypes) {v : PcpBatch}
    (hne : v.st.lists t ≠ []) (hcount : 0 < v.count) {fuel : Nat} (hfuel : v.count < fuel) :
    ∃ r, loop (pcpFreeRound zr t) fuel v = some r ∧
      ∃ freed, PcpMoved zr v.st r.st freed ∧ freed.length + r.count = v.count ∧ freed ≠ [] := by
  apply loop_ranked (fun n w => w.count = n ∧ 0 < n ∧ w.st.lists t ≠ [] ∧
    ∃ freed, PcpMoved zr v.st w.st freed ∧ freed.length + w.count = v.count) _
    ⟨rfl, hcount, hne, [], .refl zr _, Nat.zero_add _⟩ hfuel
  rintro n w ⟨rfl, hpos, hlist, freed, hmoved, hlen⟩
  obtain ⟨page, hlast⟩ : ∃ page, (w.st.lists t).getLast? = some page :=
    ⟨_, List.getLast?_eq_some_getLast hlist⟩
  have hstep := hmoved.trans (pcpFreeLast_moved zr ht hlast)
  have hlen' : (freed ++ [page]).length + (w.count - 1) = v.count := by
    rw [List.length_append, List.length_singleton]
    omega
  have hnil : freed ++ [page] ≠ [] := by simp
  simp only [pcpFreeRound, hlast]
  split_ifs with hc hb hl
  · exact ⟨_, hstep, by rw [← hc]; exact hlen', hnil⟩
  · exact ⟨_, hstep, hlen', hnil⟩
  · exact ⟨_, hstep, hlen', hnil⟩
  · exact ⟨w.count - 1, by omega, rfl, by omega, hl, _, hstep, hlen'⟩

/-- One round of the outer loop moves at least one page. -/
theorem pcpDrainRound_total (zr : ZoneRange) {fuel m : Nat} {v : PcpBatch}
    (hm : m < migratePcptypes) (hcount : 0 < v.count) (hle : v.count ≤ v.st.pages.length)
    (hfuel : v.count + migratePcptypes < fuel) :
    ∃ r, pcpDrainRound zr fuel (m, v) = some (.inl r) ∧ r.1 < migratePcptypes ∧
      ∃ freed, PcpMoved zr v.st r.2.st freed ∧ freed.length + r.2.count = v.count ∧
        freed ≠ [] := by
  obtain ⟨t, ht, hne⟩ := v.st.exists_list (by omega)
  obtain ⟨found, hfound, hlt, hlist, -⟩ := @pcpSearch_total v.st.lists t ht hne fuel m v.batchFree
    hm (by omega)
  obtain ⟨w, hw, hmoved⟩ := @pcpFree_total zr found.1 hlt { v with batchFree := found.2 } hlist
    hcount fuel (by dsimp only; omega)
  refine ⟨(found.1, w), ?_, hlt, hmoved⟩
  rw [pcpDrainRound, if_neg (by dsimp only; omega), hfound, Option.bind_some, hw, Option.map_some]

/-- The whole of `free_pcppages_bulk` moves `count` pages. -/
theorem freePcppagesBulk_moved (zr : ZoneRange) {fuel count : Nat} {s : PcpZone}
    (hle : count ≤ s.pages.length) (hfuel : count + migratePcptypes < fuel) :
    ∃ s', freePcppagesBulk zr fuel count s = some s' ∧
      ∃ freed, PcpMoved zr { s with nrFreePages := s.nrFreePages + count } s' freed ∧
        freed.length = count := by
  unfold freePcppagesBulk
  generalize hs₀ : ({ s with
    allUnreclaimable := false
    pagesScanned := 0
    nrFreePages := s.nrFreePages + count } : PcpZone) = s₀
  have hsame : ∀ s' freed, PcpMoved zr s₀ s' freed →
      PcpMoved zr { s with nrFreePages := s.nrFreePages + count } s' freed := by
    rintro s' freed ⟨h₁, h₂, h₃⟩
    subst hs₀
    exact ⟨h₁, h₂, h₃⟩
  have hpages : count ≤ s₀.pages.length := by
    subst hs₀
    exact hle
  apply loop_ranked (fun n p => p.2.count = n ∧ n ≤ count ∧ p.1 < migratePcptypes ∧
    n ≤ p.2.st.pages.length ∧
    ∃ freed, PcpMoved zr s₀ p.2.st freed ∧ freed.length + p.2.count = count) _
    ⟨rfl, Nat.le_refl _, Nat.zero_lt_succ _, hpages, [], .refl zr _, Nat.zero_add _⟩ (by omega)
  rintro n ⟨m, v⟩ ⟨rfl, hn, hm, hlen, freed, hmoved, hsum⟩
  dsimp only at hn hm hlen hmoved hsum
  by_cases hzero : v.count = 0
  · rw [pcpDrainRound, if_pos hzero]
    exact ⟨freed, hsame _ _ hmoved, by omega⟩
  · obtain ⟨r, hr, hm', more, hmore, hcount, hsome⟩ :=
      @pcpDrainRound_total zr fuel m v hm (by omega) hlen (by omega)
    have hpos := List.length_pos_iff.mpr hsome
    have hleft := hmore.length
    rw [hr]
    refine ⟨_, ?_, rfl, ?_, hm', ?_, freed ++ more, hmoved.trans hmore, ?_⟩
    · dsimp only
      omega
    · omega
    · omega
    · rw [List.length_append]
      omega

/-! ### Where the pages go -/

/-- A zone in order: the buddy lists describe their pages, and the pages on the per-CPU lists are
distinct pages of the zone that the buddy lists do not hold. -/
structure PcpZone.Ok (zr : ZoneRange) (s : PcpZone) : Prop where
  canon : Canon zr s.zone s.zone.FreePage
  nodup : (s.pages.map PcpPage.pfn).Nodup
  held : ∀ page ∈ s.pages, zr.Has page.pfn ∧ ¬ s.zone.FreePage page.pfn

/-- Giving back distinct pages that are not free makes these pages free, and no others. -/
theorem freeOnePages_free {zr : ZoneRange} {freed : List PcpPage} {z : Zone}
    (hcanon : Canon zr z z.FreePage) (hnodup : (freed.map PcpPage.pfn).Nodup)
    (hheld : ∀ page ∈ freed, zr.Has page.pfn ∧ ¬ z.FreePage page.pfn) :
    Canon zr (freed.foldl (fun z page => freeOnePage zr z page.pfn 0 page.pagePrivate false) z)
      (fun q => z.FreePage q ∨ q ∈ freed.map PcpPage.pfn) := by
  induction freed generalizing z with
  | nil => simpa using hcanon
  | cons page freed ih =>
    obtain ⟨hfresh, hnodup⟩ := List.nodup_cons.mp hnodup
    have hpage := hheld page List.mem_cons_self
    have hone : ∀ q, q / 2 ^ 0 = page.pfn / 2 ^ 0 ↔ q = page.pfn := by
      intro q
      rw [Nat.pow_zero, Nat.div_one, Nat.div_one]
    have hstep := hcanon.free zr.maxOrder_pos (Nat.mod_one page.pfn)
      (fun q hq => (hone q).mp hq ▸ ⟨hpage.2, hpage.1⟩) page.pagePrivate
    have hfree := fun q => hstep.freePage_iff (q := q)
    have hcanon' := hstep.congr fun q => (hfree q).symm
    rw [List.foldl_cons]
    refine (ih hcanon' hnodup fun other hother => ?_).congr fun q => ?_
    · have hother' := hheld other (List.mem_cons_of_mem _ hother)
      refine ⟨hother'.1, fun hq => ?_⟩
      rcases (hfree other.pfn).mp hq with hq | hq
      · exact hother'.2 hq
      · exact hfresh ((hone _).mp hq ▸ List.mem_map_of_mem hother)
    · rw [hfree q, hone q, List.map_cons, List.mem_cons, or_assoc]

/-- Draining `count` of the pages on the per-CPU lists: it ends and finds a page each time it
takes one, exactly `count` distinct pages become free in the buddy lists, the others stay on the
per-CPU lists, and `NR_FREE_PAGES` grows by `count`. The zone stays in order. -/
theorem free_pcppages_bulk_correct (zr : ZoneRange) (s : PcpZone) (hok : s.Ok zr) (count : Nat)
    (hle : count ≤ s.pages.length) (fuel : Nat) (hfuel : count + migratePcptypes < fuel) :
    ∃ s', freePcppagesBulk zr fuel count s = some s' ∧ s'.Ok zr ∧
      s'.nrFreePages = s.nrFreePages + count ∧
      ∃ freed : List PcpPage, freed.length = count ∧ (freed.map PcpPage.pfn).Nodup ∧
        s.pages.Perm (freed ++ s'.pages) ∧
        ∀ q, s'.zone.FreePage q ↔ s.zone.FreePage q ∨ q ∈ freed.map PcpPage.pfn := by
  obtain ⟨s', hs', freed, hmoved, hlen⟩ := freePcppagesBulk_moved zr hle hfuel
  have hperm : s.pages.Perm (freed ++ s'.pages) := hmoved.pages
  have hzone := hmoved.zone
  have hnodup : (freed.map PcpPage.pfn ++ s'.pages.map PcpPage.pfn).Nodup := by
    rw [← List.map_append]
    exact (hperm.map _).nodup_iff.mp hok.nodup
  obtain ⟨hfreed, hrest, hapart⟩ := List.nodup_append.mp hnodup
  have hheld : ∀ page ∈ freed ++ s'.pages, zr.Has page.pfn ∧ ¬ s.zone.FreePage page.pfn :=
    fun page hpage => hok.held page (hperm.mem_iff.mpr hpage)
  have hcanon : Canon zr s'.zone fun q => s.zone.FreePage q ∨ q ∈ freed.map PcpPage.pfn := by
    rw [hzone]
    exact freeOnePages_free hok.canon hfreed fun page hpage =>
      hheld page (List.mem_append_left _ hpage)
  have hfree : ∀ q, s'.zone.FreePage q ↔ s.zone.FreePage q ∨ q ∈ freed.map PcpPage.pfn :=
    fun q => hcanon.freePage_iff
  refine ⟨s', hs', ⟨hcanon.congr fun q => (hfree q).symm, hrest, fun page hpage => ?_⟩,
    hmoved.nrFreePages, freed, hlen, hfreed, hperm, hfree⟩
  obtain ⟨hhas, hnot⟩ := hheld page (List.mem_append_right _ hpage)
  refine ⟨hhas, fun hq => ?_⟩
  rcases (hfree page.pfn).mp hq with hq | hq
  · exact hnot hq
  · exact hapart _ hq _ (List.mem_map_of_mem hpage) rfl

/-- Four pages, none in the buddy lists; three of them are on two of the per-CPU lists. -/
def threeOnPcp : PcpZone where
  lists := fun t => if t = 1 then [⟨0, .movable⟩, ⟨2, .movable⟩] else
    if t = 2 then [⟨3, .unmovable⟩] else []
  zone := ⟨fun _ _ => [], fun _ => 0, fun _ => none, fun _ => .movable, fun _ => false⟩
  nrFreePages := 0
  allUnreclaimable := false
  pagesScanned := 0

/-- Two of the three are drained. -/
theorem free_pcppages_bulk_two :
    ∃ zr : ZoneRange, ∃ s', threeOnPcp.Ok zr ∧ freePcppagesBulk zr 6 2 threeOnPcp = some s' ∧
      s'.nrFreePages = 2 ∧ s'.pages.length = 1 := by
  let zr : ZoneRange := ⟨0, 4, 2, 1, by decide⟩
  have hfresh : threeOnPcp.zone.Fresh := ⟨fun _ _ => rfl, fun _ => rfl, fun _ => rfl, fun _ => rfl⟩
  have hcanon : Canon zr threeOnPcp.zone fun _ => false = true := hfresh.canon
  have hok : threeOnPcp.Ok zr := by
    refine ⟨hcanon.congr fun q => hcanon.freePage_iff.symm, by decide, fun page hpage => ⟨?_, ?_⟩⟩
    · revert page
      decide
    · simp [hcanon.freePage_iff]
  obtain ⟨s', hs', -, hnr, freed, hlen, -, hperm, -⟩ :=
    free_pcppages_bulk_correct zr threeOnPcp hok 2 (by decide) 6 (by decide)
  refine ⟨zr, s', hok, hs', hnr, ?_⟩
  have hsum := hperm.length_eq
  rw [List.length_append, hlen] at hsum
  have hthree : threeOnPcp.pages.length = 3 := by decide
  omega

end LinuxStm32.Mm
