import LinuxStm32.Mm.MmapFailure
import LinuxStm32.Mm.MmapRegions

/-!
# Mappings that share a region

Runs of mappings, unmappings and exits. The search for a region to share, `mm/nommu.c:1258–1288`,
compares numbers of pages, but a region that the file provides ends at its last byte. So a longer
request for the same pages shares it and gets a VMA that ends behind it. In runs without such
requests every VMA lies inside its region.
-/

namespace LinuxStm32.Mm.Mmap

open Base

/-! ### Calls -/

/-- What a mapping may be answered: `mmap` returns 0 or an error, the memory of a file and the pages
for a copy lie inside the address space. -/
structure AnswersOk (req : Request) (env : Answers) : Prop where
  len_lt : req.len < 4294967296
  pgoff_lt : req.pgoff < 4294967296
  mmap_le : env.mmap ≤ 0
  area : env.unmappedArea < 4294963201 → env.unmappedArea + req.len < 4294967296
  block : ∀ base, env.block = some base → base + 2 ^ getOrder (pageAlign req.len) < 1048576

/-- The calls of the runs: an unmapping finds VMAs that exist, the first one at its start. -/
def CallOk (s : Mem) : Call → Prop
  | .mmap _ req env => AnswersOk req env
  | .munmap _ start _ env =>
    (∀ v, env.found = some v → v ∈ s.vmas ∧ v.vmStart ≤ start ∧ start < v.vmEnd) ∧
      ∀ v, env.last = some v → v ∈ s.vmas
  | .exit _ => True

/-- A mapping that shares a region does not ask for bytes behind its last one. -/
def ReuseOk (taskSize : Nat) (s : Mem) : Call → Prop
  | .mmap _ req env => ∀ flags pregion mapped,
    plan taskSize s req env = .share flags pregion mapped →
      (req.pgoff - pregion.vmPgoff) * 4096 + req.len ≤ pregion.vmEnd - pregion.vmStart
  | _ => True

/-! ### Making a region -/

section Make

variable {taskSize : Nat} {s s' : Mem} {req : Request} {env : Answers} {pages : Pages}
  {region : VmRegion} {start stop : Nat}

/-- A region as it is made, with the bounds of its first VMA. -/
structure Made (s : Mem) (req : Request) (region : VmRegion) (start stop : Nat) : Prop where
  id : region.id = s.nextId
  usage : region.vmUsage = 1
  pgoff : region.vmPgoff = req.pgoff
  vmStart : region.vmStart = start
  stop_eq : stop = start + req.len
  stop_le : stop ≤ region.vmEnd
  end_le : region.vmEnd ≤ start + pagesOf req.len * 4096
  top : region.vmEnd ≤ region.vmTop
  end_lt : region.vmEnd < 4294967296

/-- A direct mapping has an address; a mapping without one is not direct any more. -/
theorem siteMapping_ok {caps caps' : Caps} {a : Nat} {addr : Option Nat}
    (h : siteMapping caps a = .ok (caps', addr)) :
    addr = some a ∧ a < 4294963201 ∨
      addr = none ∧ caps'.direct = false ∧ (caps.direct = true → caps.copy = true) := by
  unfold siteMapping at h
  by_cases hdirect : caps.direct = true
  swap
  · rw [if_pos hdirect] at h
    cases h
    exact .inr ⟨rfl, by simpa using hdirect, fun hyes => absurd hyes hdirect⟩
  rw [if_neg (not_not.mpr hdirect)] at h
  by_cases haddr : 4294963201 ≤ a
  swap
  · rw [if_neg haddr] at h
    cases h
    exact .inl ⟨rfl, Nat.not_le.mp haddr⟩
  rw [if_pos haddr] at h
  split_ifs at h with herror hcopy
  cases h
  exact .inr ⟨rfl, rfl, fun _ => hcopy⟩

/-- The `mmap` method returns 0 where a mapping of a file's memory goes on. -/
theorem setupMapped_done {mapped : VmRegion} (hle : env.mmap ≤ 0)
    (h : setupMapped s.pages mapped (doMmapSharedFile env.mmap) = .done pages region start stop) :
    env.mmap = 0 ∧ region = { mapped with vmTop := mapped.vmEnd } ∧ start = mapped.vmStart ∧
      stop = mapped.vmEnd := by
  unfold setupMapped doMmapSharedFile at h
  by_cases h0 : env.mmap = 0
  · rw [if_pos h0] at h
    cases h
    exact ⟨h0, rfl, rfl, rfl⟩
  · rw [if_neg h0] at h
    exfalso
    by_cases hnosys : env.mmap ≠ enosys
    · rw [if_pos hnosys, if_pos (by dsimp only; omega)] at h
      cases h
    · rw [if_neg hnosys, if_pos (by decide)] at h
      cases h

/-- A region in the memory of its file. -/
theorem Made.direct {flags : VmFlags} {a : Nat} (ha : a + req.len < 4294967296)
    (hpages : req.len ≤ pagesOf req.len * 4096) :
    Made s req { req.region s flags (some a) with vmTop := (req.region s flags (some a)).vmEnd }
      a (wadd a req.len) := by
  have hend : wadd a req.len = a + req.len := wadd_of_lt ha
  constructor
  · rfl
  · rfl
  · rfl
  · rfl
  · exact hend
  · exact Nat.le_refl _
  · simp only [Request.region, hend]
    omega
  · exact Nat.le_refl _
  · simp only [Request.region, hend]
    exact ha

/-- A region with pages of its own. -/
theorem Made.copy {flags : VmFlags} {addr : Option Nat} (hpos : 0 < pageAlign req.len)
    (hpages : req.len ≤ pagesOf req.len * 4096)
    (hblock : ∀ base, env.block = some base →
      base + 2 ^ getOrder (pageAlign req.len) < 1048576)
    (h : copyMapping s.pages req env (req.region s flags addr) = .done pages region start stop) :
    Made s req region start stop ∧ region.vmFlags.mayShare = flags.mayShare := by
  unfold copyMapping at h
  cases hb : env.block with
  | none =>
    rw [hb] at h
    cases h
  | some base =>
    rw [hb] at h
    dsimp only at h
    split_ifs at h
    have hram := hblock base hb
    have hrlen := pageAlign_lt req.len
    have hal := pageAlign_aligned req.len
    have hroom := le_getOrder hpos hrlen
    obtain ⟨-, hkept, hfew⟩ := keptPages_bounds hpos hrlen hal env.trim
    obtain ⟨hstart, hend⟩ := block_addresses hram hroom
    rw [Pages.mmapPages_eq hpos hrlen hal] at h
    generalize hk : keptPages (pageAlign req.len) env.trim = kept at h hkept hfew
    have htop : wadd (base * 4096) (wmul kept pageSize) = base * 4096 + kept * 4096 := by
      have hlt : kept * 4096 < 4294967296 := by omega
      have hmul : wmul kept pageSize = kept * 4096 := Nat.mod_eq_of_lt hlt
      rw [hmul]
      exact (block_addresses hram (Nat.mul_le_mul_right 4096 hfew)).2
    have hlen : req.len ≤ pageAlign req.len := hpages
    have hstop : wadd (base * 4096) req.len = base * 4096 + req.len :=
      (block_addresses hram (Nat.le_trans hlen hroom)).2
    cases h
    have hid : (req.region s flags addr).id = s.nextId ∧ (req.region s flags addr).vmUsage = 1 ∧
        (req.region s flags addr).vmPgoff = req.pgoff ∧
        (req.region s flags addr).vmFlags = flags := by
      cases addr <;> exact ⟨rfl, rfl, rfl, rfl⟩
    refine ⟨⟨hid.1, hid.2.1, hid.2.2.1, rfl, ?_, ?_, ?_, ?_, ?_⟩, by dsimp only; rw [hid.2.2.2]⟩
    · rw [hstart, hstop]
    · dsimp only
      rw [hstart, hstop, hend]
      omega
    · dsimp only
      rw [hstart, hend]
      exact Nat.le_refl _
    · dsimp only
      rw [hstart, hend, htop]
      omega
    · dsimp only
      rw [hstart, hend]
      omega

/-- Every region that is made is a good one, of a request that is granted. -/
theorem plan_made (hok : AnswersOk req env)
    (h : plan taskSize s req env = .create pages region start stop) :
    Made s req region start stop ∧ ∃ caps, validateMmapRequest taskSize req env = .ok caps ∧
      region.vmFlags.mayShare = (determineVmFlags req caps env.traced).mayShare := by
  obtain ⟨caps, caps', addr, flags, hv, hflags, hsite, hset⟩ := plan_create h
  obtain ⟨hpos, hpages, hwrap⟩ := granted_pages hok.len_lt hv
  have hle : req.len ≤ pagesOf req.len * 4096 := by
    rw [hpages]
    omega
  have hdirect : addr = some env.unmappedArea → env.unmappedArea < 4294963201 →
      region = { req.region s flags addr with vmTop := (req.region s flags addr).vmEnd } →
      start = (req.region s flags addr).vmStart → stop = (req.region s flags addr).vmEnd →
      Made s req region start stop ∧ region.vmFlags.mayShare = flags.mayShare := by
    rintro rfl hlow rfl rfl rfl
    exact ⟨.direct (hok.area hlow) hle, rfl⟩
  suffices hmade : Made s req region start stop ∧ region.vmFlags.mayShare = flags.mayShare from
    ⟨hmade.1, caps, hv, hflags ▸ hmade.2⟩
  have hvmFlags : (req.region s flags addr).vmFlags = flags := by cases addr <;> rfl
  unfold setupMapping at hset
  by_cases hshared : req.file.isSome ∧ (req.region s flags addr).vmFlags.shared = true
  · rw [if_pos hshared] at hset
    obtain ⟨-, hregion, hstart, hstop⟩ := setupMapped_done hok.mmap_le hset
    rw [hvmFlags, hflags] at hshared
    obtain ⟨hcapsDirect, hcapsCopy, hmay⟩ := granted_vmShared hv hshared.2
    -- no copy can stand in, so there is an address
    rcases hsite with ⟨-, hsite⟩ | ⟨hno, -⟩
    · rcases siteMapping_ok hsite with ⟨haddr, hlow⟩ | ⟨-, -, hcopy⟩
      · exact hdirect haddr hlow hregion hstart hstop
      · rw [hcopy hcapsDirect] at hcapsCopy
        cases hcapsCopy
    · rw [hflags, hmay] at hno
      cases hno
  rw [if_neg hshared] at hset
  unfold doMmapPrivate at hset
  by_cases hmapped : caps'.direct ∧ env.mmap ≠ enosys
  swap
  · rw [if_neg hmapped] at hset
    exact Made.copy (validateMmapRequest_len hv) hle hok.block hset
  rw [if_pos hmapped] at hset
  split_ifs at hset with hbug
  obtain ⟨h0, hregion, hstart, hstop⟩ := setupMapped_done hok.mmap_le hset
  -- without sharing this is the `BUG()`, so the mapping was sited
  rcases hsite with ⟨-, hsite⟩ | ⟨hno, -⟩
  · rcases siteMapping_ok hsite with ⟨haddr, hlow⟩ | ⟨-, hcopied, -⟩
    · exact hdirect haddr hlow hregion hstart hstop
    · rw [hcopied] at hmapped
      cases hmapped.1
  · exact absurd ⟨h0, by rw [hvmFlags, hno]; decide⟩ hbug

end Make

/-! ### Sharing a region -/

section Share

variable {taskSize : Nat} {s s' : Mem} {req : Request} {env : Answers} {pregion : VmRegion}

/-- What the search finds overlaps the request and covers it. -/
theorem searchRegions_found {inode pgoff pglen : Nat} {direct : Bool} {tree : List VmRegion}
    (h : searchRegions inode pgoff pglen direct tree = .found pregion) :
    pregion ∈ tree ∧ pregion.overlaps inode pgoff (wadd pgoff pglen) = true ∧
      pregion.covers pgoff pglen = true := by
  induction tree with
  | nil => cases h
  | cons r tree ih =>
    have hrest : searchRegions inode pgoff pglen direct tree = .found pregion →
        pregion ∈ r :: tree ∧ pregion.overlaps inode pgoff (wadd pgoff pglen) = true ∧
          pregion.covers pgoff pglen = true := by
      intro hfound
      obtain ⟨hmem, hboth⟩ := ih hfound
      exact ⟨List.mem_cons_of_mem _ hmem, hboth⟩
    unfold searchRegions at h
    split_ifs at h with hover hcover hdirect
    · exact hrest h
    · exact hrest h
    · obtain rfl := Search.found.inj h
      exact ⟨List.mem_cons_self, by simpa using hover, by simpa using hcover⟩

/-- The pages of a request that shares a region are pages of the region. -/
theorem RegionSound.covers {inode pgoff pglen : Nat} (hsound : RegionSound pregion)
    (hwrap : pgoff + pglen < 4294967296)
    (hover : pregion.overlaps inode pgoff (wadd pgoff pglen) = true)
    (hcover : pregion.covers pgoff pglen = true) :
    pregion.vmFlags.mayShare = true ∧ pregion.vmPgoff ≤ pgoff ∧
      pgoff + pglen ≤ pregion.vmPgoff + (pregion.vmEnd - pregion.vmStart + 4095) / 4096 := by
  have hend : wadd pgoff pglen = pgoff + pglen := wadd_of_lt hwrap
  simp only [VmRegion.overlaps, VmRegion.covers, hend, Bool.and_eq_true, Bool.or_eq_true,
    beq_iff_eq, decide_eq_true_eq] at hover hcover
  have hshare := hover.1.1.1
  have hsize : wsub pregion.vmEnd pregion.vmStart = pregion.vmEnd - pregion.vmStart :=
    wsub_of_le hsound.end_lt (Nat.le_of_lt hsound.start_lt)
  have hlen : pregion.rpglen = (pregion.vmEnd - pregion.vmStart + 4095) / 4096 := by
    rw [VmRegion.rpglen, pagesOf, hsize]
    exact congrArg (· / 4096) (wadd_of_lt (hsound.size_lt hshare))
  have hrend : pregion.rpgend = pregion.vmPgoff + pregion.rpglen := by
    rw [VmRegion.rpgend]
    exact wadd_of_lt (hlen ▸ hsound.pages_lt hshare)
  rw [hrend] at hcover
  rw [← hlen]
  exact ⟨hshare, by omega, by omega⟩

/-- Where a VMA that shares a region starts. -/
theorem RegionSound.pageAddr {pgoff pglen : Nat} (hsound : RegionSound pregion)
    (hpgoff : pgoff < 4294967296) (hpos : 0 < pglen) (hle : pregion.vmPgoff ≤ pgoff)
    (hin : pgoff + pglen ≤
      pregion.vmPgoff + (pregion.vmEnd - pregion.vmStart + 4095) / 4096) :
    pregion.pageAddr pgoff = pregion.vmStart + (pgoff - pregion.vmPgoff) * 4096 ∧
      pregion.vmStart + (pgoff - pregion.vmPgoff) * 4096 < pregion.vmEnd := by
  have hend := hsound.end_lt
  have hstart := hsound.start_lt
  have hoff : wsub pgoff pregion.vmPgoff = pgoff - pregion.vmPgoff := wsub_of_le hpgoff hle
  have hlow : (pgoff - pregion.vmPgoff) * 4096 < pregion.vmEnd - pregion.vmStart := by omega
  have hmul : wmul (pgoff - pregion.vmPgoff) pageSize = (pgoff - pregion.vmPgoff) * 4096 :=
    Nat.mod_eq_of_lt (Nat.lt_of_lt_of_le hlow (by omega))
  rw [VmRegion.pageAddr, hoff, hmul]
  exact ⟨wadd_of_lt (by omega), by omega⟩

/-- A VMA that shares a region lies inside it if and only if no byte behind the region's last is
asked for. -/
theorem inside_iff {v : Vma} {off len : Nat} (hsound : RegionSound pregion)
    (hle : pregion.vmPgoff ≤ v.vmPgoff) (hoff : v.vmPgoff - pregion.vmPgoff = off)
    (hlow : pregion.vmStart + off * 4096 < pregion.vmEnd)
    (hpos : 0 < len) (hlen : len < 4294967296) (hstart : v.vmStart = pregion.vmStart + off * 4096)
    (hstop : v.vmEnd = wadd v.vmStart len) :
    Inside pregion v ↔ off * 4096 + len ≤ pregion.vmEnd - pregion.vmStart := by
  have hend := hsound.end_lt
  unfold Inside
  rw [hoff, ← hstart]
  unfold wadd at hstop
  constructor
  · rintro ⟨-, -, hlt, hin⟩
    omega
  · intro hin
    exact ⟨hle, rfl, by omega, by omega⟩

/-- A request that shares a region: the region is in the tree and may be shared, the request is for
a file, and the new VMA lies inside if and only if no byte behind the region's last is asked for. -/
theorem MapInv.share_spec (h : MapInv s.regionTree s.vmas s.nextId) (hok : AnswersOk req env)
    {flags : VmFlags} {mapped : VmRegion → VmRegion}
    (hplan : plan taskSize s req env = .share flags pregion mapped) :
    pregion ∈ s.regionTree ∧ pregion.vmFlags.mayShare = true ∧ req.file.isSome ∧
      ∀ mm vmFlags, Inside pregion (req.vma s mm vmFlags (pregion.pageAddr req.pgoff)
          (wadd (pregion.pageAddr req.pgoff) req.len) pregion.id) ↔
        (req.pgoff - pregion.vmPgoff) * 4096 + req.len ≤ pregion.vmEnd - pregion.vmStart := by
  obtain ⟨caps, hv, hflags, hsearch, -⟩ := plan_share hplan
  obtain ⟨hmem, hover, hcover⟩ := searchRegions_found hsearch
  obtain ⟨hpos, hpages, -⟩ := granted_pages hok.len_lt hv
  have hsound := h.sound pregion hmem
  have hwrap := granted_pgoff hok.len_lt hok.pgoff_lt hv
  have hpglen : 0 < pagesOf req.len := by
    rw [hpages]
    omega
  obtain ⟨hshare, hle, hin⟩ := hsound.covers hwrap hover hcover
  obtain ⟨haddr, hlow⟩ := hsound.pageAddr hok.pgoff_lt hpglen hle hin
  refine ⟨hmem, hshare, granted_mayShare hv hflags, fun mm vmFlags => ?_⟩
  exact inside_iff hsound hle rfl hlow hpos hok.len_lt haddr rfl

theorem onRegion_onRegion (id : Nat) (f g : VmRegion → VmRegion) (hg : ∀ r, (g r).id = r.id)
    (tree : List VmRegion) :
    onRegion id f (onRegion id g tree) = onRegion id (fun r => f (g r)) tree := by
  unfold onRegion
  rw [List.map_map]
  apply List.map_congr_left
  intro r _
  by_cases heq : r.id = id
  · simp [heq, hg]
  · simp [heq]

/-- The tree after a region is shared. -/
theorem share_regionTree (s : Mem) (mm : Nat) (req : Request) (flags : VmFlags) (pregion : VmRegion)
    (mapped : VmRegion → VmRegion) :
    (s.share mm req flags pregion mapped).regionTree =
      onRegion pregion.id (fun r => mapped { r with vmUsage := r.vmUsage + 1 }) s.regionTree :=
  onRegion_onRegion _ mapped (fun r => { r with vmUsage := r.vmUsage + 1 }) (fun _ => rfl) _

/-- A region is shared by one more VMA. -/
theorem MapInv.share (h : MapInv s.regionTree s.vmas s.nextId) (hok : AnswersOk req env) {mm : Nat}
    {flags : VmFlags} {mapped : VmRegion → VmRegion}
    (hplan : plan taskSize s req env = .share flags pregion mapped)
    (hreuse : (req.pgoff - pregion.vmPgoff) * 4096 + req.len ≤ pregion.vmEnd - pregion.vmStart)
    (hs : s' = s.share mm req flags pregion mapped) :
    MapInv s'.regionTree s'.vmas s'.nextId := by
  obtain ⟨hmem, hshare, hfile, hinside⟩ := h.share_spec hok hplan
  obtain ⟨-, -, -, -, rfl⟩ := plan_share hplan
  have hkeeps := shareMapped_keeps env pregion
  subst hs
  rw [share_regionTree]
  apply h.update hmem hshare
  · have hshape := shareMapped_shape env pregion { pregion with vmUsage := pregion.vmUsage + 1 }
    exact ⟨hshape.vmStart, hshape.vmEnd, hshape.vmPgoff, hshape.vmFlags, hshape.vmFile⟩
  · exact (hkeeps { pregion with vmUsage := pregion.vmUsage + 1 }).2.2 (h.sound pregion hmem).end_le
  · exact fun q => (hkeeps _).1
  · exact h.counted.share hmem rfl (fun q => (hkeeps _).1) (hkeeps _).2.1
  · intro w hw
    rcases List.mem_cons.mp hw with rfl | hw
    · refine .inr ⟨rfl, fun _ => (hinside mm _).mpr hreuse, fun _ => hfile, fun hno => ?_⟩
      rw [hshare] at hno
      cases hno
    · exact .inl hw
  · exact Nat.le_succ _

end Share

/-! ### Mapping -/

section Mapping

variable {taskSize : Nat} {s s' : Mem} {req : Request} {env : Answers} {mm : Nat}

/-- A region is made with its first VMA. -/
theorem MapInv.create (h : MapInv s.regionTree s.vmas s.nextId) (hok : AnswersOk req env)
    {pages : Pages} {region : VmRegion} {start stop : Nat} {tree : List VmRegion}
    (hplan : plan taskSize s req env = .create pages region start stop)
    (htree : addNommuRegion s.regionTree region = some tree)
    (hs : s' = s.create mm req pages region start stop tree) :
    MapInv s'.regionTree s'.vmas s'.nextId := by
  obtain ⟨hmade, caps, hv, hflags⟩ := plan_made hok hplan
  obtain ⟨hpos, hpages, hwrap⟩ := granted_pages hok.len_lt hv
  have hpgoff := granted_pgoff hok.len_lt hok.pgoff_lt hv
  have hstart := hmade.vmStart
  have hstop := hmade.stop_eq
  have hstop_le := hmade.stop_le
  have hend_le := hmade.end_le
  have hoff := hmade.pgoff
  have hnew : region.id ∉ s.regionTree.map VmRegion.id := by
    intro hmem
    obtain ⟨q, hq, heq⟩ := List.mem_map.mp hmem
    exact absurd (heq.trans hmade.id) (Nat.ne_of_lt (h.fresh q hq))
  subst hs
  apply h.add (treeInsert_perm htree) hnew (Nat.le_succ _) _ hmade.usage
  · exact ⟨by omega, hmade.top, hmade.end_lt, fun _ => by omega, fun _ => by omega,
      fun _ => hmade.usage⟩
  · rfl
  · constructor
    · intro _
      dsimp only [Inside, Request.vma]
      exact ⟨by omega, by omega, by omega, hstop_le⟩
    · intro hshare
      exact granted_mayShare hv (hflags.symm.trans hshare)
    · exact fun _ => ⟨hstart.symm, hstop_le⟩
  · rw [hmade.id]
    exact Nat.lt_succ_self _

/-- A mapping keeps the invariant. -/
theorem MapInv.doMmapPgoff (h : MapInv s.regionTree s.vmas s.nextId) {ret : Int}
    (hok : AnswersOk req env) (hreuse : ReuseOk taskSize s (.mmap mm req env))
    (hrun : doMmapPgoff taskSize s mm req env = some (ret, s')) :
    MapInv s'.regionTree s'.vmas s'.nextId := by
  rw [doMmapPgoff_eq] at hrun
  cases hplan : plan taskSize s req env with
  | bug =>
    rw [hplan] at hrun
    cases hrun
  | refuse e =>
    rw [hplan] at hrun
    cases hrun
    exact h
  | fail e pages =>
    rw [hplan] at hrun
    cases hrun
    obtain ⟨htree, hvmas, hnext⟩ := { s with pages }.unmade_fields mm req
    rw [htree, hvmas, hnext]
    exact h
  | share flags pregion mapped =>
    rw [hplan] at hrun
    exact h.share hok hplan (hreuse _ _ _ hplan) (Prod.mk.inj (Option.some.inj hrun)).2.symm
  | create pages region start stop =>
    rw [hplan] at hrun
    obtain ⟨tree, htree, heq⟩ := Option.map_eq_some_iff.mp hrun
    exact h.create hok hplan htree (Prod.mk.inj heq).2.symm

/-- A mapping after which all VMAs lie inside their regions did not ask for bytes behind a
region. -/
theorem reuseOk_of_mapsRightBytes (h : MapInv s.regionTree s.vmas s.nextId) {ret : Int}
    (hok : AnswersOk req env) (hrun : doMmapPgoff taskSize s mm req env = some (ret, s'))
    (hright : MapsRightBytes s') : ReuseOk taskSize s (.mmap mm req env) := by
  intro flags pregion mapped hplan
  rw [doMmapPgoff_eq, hplan] at hrun
  obtain ⟨hmem, hshare, -, hinside⟩ := h.share_spec hok hplan
  obtain ⟨-, -, -, -, rfl⟩ := plan_share hplan
  obtain ⟨-, rfl⟩ := Prod.mk.inj (Option.some.inj hrun)
  have hshape := shareMapped_shape env pregion { pregion with vmUsage := pregion.vmUsage + 1 }
  have hregion : (shareMapped env pregion).2 { pregion with vmUsage := pregion.vmUsage + 1 } ∈
      (s.share mm req flags pregion (shareMapped env pregion).2).regionTree := by
    rw [share_regionTree]
    exact List.mem_map.mpr ⟨pregion, hmem, if_pos rfl⟩
  have hid := (shareMapped_keeps env pregion { pregion with vmUsage := pregion.vmUsage + 1 }).1
  have hin := hright.inside _ List.mem_cons_self _ hregion hid.symm
    (by rw [hshape.vmFlags]; exact hshare)
  unfold Inside at hin
  rw [hshape.vmStart, hshape.vmEnd, hshape.vmPgoff] at hin
  exact (hinside mm _).mp hin

end Mapping

/-! ### Runs -/

/-- The invariant holds along every run in which no mapping asks for bytes behind a region. -/
theorem mapInv_of_reach {taskSize : Nat} {s : Mem}
    (h : (mmapSystem taskSize).Reach (fun s call => CallOk s call ∧ ReuseOk taskSize s call) s) :
    MapInv s.regionTree s.vmas s.nextId := by
  apply System.Reach.invariant _ _ h
  · intro s hempty
    rw [hempty.1, hempty.2]
    exact .nil _
  · rintro s call s' hinv ⟨hok, hreuse⟩ hrun
    cases call with
    | mmap mm req env =>
      obtain ⟨r, hr, rfl⟩ := Option.map_eq_some_iff.mp hrun
      exact hinv.doMmapPgoff hok hreuse hr
    | munmap mm start len env =>
      obtain ⟨r, hr, rfl⟩ := Option.map_eq_some_iff.mp hrun
      exact hinv.doMunmap hok.1 hok.2 hr
    | exit mm => exact hinv.exitMmap List.filter_sublist.subperm hrun

/-- In every run in which no mapping asks for bytes behind the region that it shares, the VMAs of
regions that may be shared lie inside them, with each page of the file where the region has it, the
uses of a region are its VMAs, and a region is there as long as it has one. A call keeps this if and
only if it is no mapping that asks for such bytes. -/
theorem shared_mappings_exact_iff (taskSize : Nat) (s : Mem)
    (hs : (mmapSystem taskSize).Reach (fun s call => CallOk s call ∧ ReuseOk taskSize s call) s) :
    MapsRightBytes s ∧ ∀ call s', CallOk s call → call.run taskSize s = some s' →
      (MapsRightBytes s' ↔ ReuseOk taskSize s call) := by
  have hinv := mapInv_of_reach hs
  refine ⟨hinv.mapsRightBytes, fun call s' hok hrun => ⟨fun hright => ?_, fun hreuse => ?_⟩⟩
  · cases call with
    | mmap mm req env =>
      obtain ⟨r, hr, rfl⟩ := Option.map_eq_some_iff.mp hrun
      exact reuseOk_of_mapsRightBytes hinv hok hr hright
    | munmap mm start len env => trivial
    | exit mm => trivial
  · exact (mapInv_of_reach (.step hs ⟨hok, hreuse⟩ hrun)).mapsRightBytes

theorem firstBytes_ok (len : Nat) (h : len ≤ 4096) : AnswersOk (firstBytes len) inPlace where
  len_lt := by
    dsimp only [firstBytes]
    omega
  pgoff_lt := Nat.two_pow_pos 32
  mmap_le := by decide
  area _ := by
    dsimp only [firstBytes, inPlace]
    omega
  block base hbase := by cases hbase

/-- The state after the first hundred bytes were mapped. -/
theorem hundredBytes_reach :
    ∃ s, (mmapSystem 4294967295).Reach
        (fun s call => CallOk s call ∧ ReuseOk 4294967295 s call) s ∧
      doMmapPgoff 4294967295 nothingMapped 0 (firstBytes 100) inPlace = some (65536, s) := by
  have hempty : (mmapSystem 4294967295).Reach
      (fun s call => CallOk s call ∧ ReuseOk 4294967295 s call) nothingMapped := .init ⟨rfl, rfl⟩
  have hreuse : ReuseOk 4294967295 nothingMapped (.mmap 0 (firstBytes 100) inPlace) := by
    intro flags pregion mapped hplan
    cases hplan
  exact ⟨_, .step (a := .mmap 0 (firstBytes 100) inPlace) hempty
    ⟨firstBytes_ok 100 (by decide), hreuse⟩ rfl, rfl⟩

/-- A hundred bytes are mapped, then fifty of them: the second VMA lies inside the region. -/
theorem shared_mappings_exact_fifty :
    ∃ s s', doMmapPgoff 4294967295 nothingMapped 0 (firstBytes 100) inPlace = some (65536, s) ∧
      doMmapPgoff 4294967295 s 1 (firstBytes 50) inPlace = some (65536, s') ∧
      MapsRightBytes s' := by
  obtain ⟨s, hs, hrun⟩ := hundredBytes_reach
  have hexact := shared_mappings_exact_iff 4294967295 s hs
  obtain rfl := congrArg Prod.snd (Option.some.inj hrun)
  refine ⟨_, _, rfl, rfl, (hexact.2 (.mmap 1 (firstBytes 50) inPlace) _
    (firstBytes_ok 50 (by decide)) rfl).mpr ?_⟩
  intro flags pregion mapped hplan
  cases hplan
  decide

/-- A hundred bytes are mapped, then two hundred: the region is shared, and the second VMA ends a
hundred bytes behind it. -/
theorem shared_mapping_ends_behind_region :
    ∃ s s', (mmapSystem 4294967295).Reach
        (fun s call => CallOk s call ∧ ReuseOk 4294967295 s call) s ∧
      CallOk s (.mmap 1 (firstBytes 200) inPlace) ∧
      (Call.mmap 1 (firstBytes 200) inPlace).run 4294967295 s = some s' ∧ ¬ MapsRightBytes s' := by
  obtain ⟨s, hs, hrun⟩ := hundredBytes_reach
  obtain rfl := congrArg Prod.snd (Option.some.inj hrun)
  refine ⟨_, _, hs, firstBytes_ok 200 (by decide), rfl, fun hright => ?_⟩
  have hin := hright.inside _ List.mem_cons_self _ List.mem_cons_self rfl rfl
  exact absurd hin.2.2.2 (by decide)

end LinuxStm32.Mm.Mmap
