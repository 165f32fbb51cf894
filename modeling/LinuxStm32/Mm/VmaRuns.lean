import LinuxStm32.Mm.MmapSharing
import LinuxStm32.Mm.VmaLookup

/-!
# Runs of calls on the mappings of a process

Every call of `mm/nommu.c` keeps the tree, the list, the count and the cache of a process about
the same VMAs, and returns. So the lookups are right in whatever state calls lead to.
-/

namespace LinuxStm32.Mm.VmaTree

open Base RedBlack ColorTree Lib

variable {s : MmStruct} {m : RbMem} {l xs ys : List Ptr} {p q : Ptr} {fuel : Nat}

/-! ### Splitting and shrinking -/

section Split

variable {addr start stop : BitVec 32} {newBelow : Bool} {env : SplitEnv}

theorem Consistent.splitCopy (h : Consistent s l) (hnew : q ∉ l) (p region : Ptr)
    (addr : BitVec 32) (newBelow : Bool) :
    Consistent (splitCopy p q region addr newBelow s) l := by
  have htree := h.tree.modify (g := fun _ => s.mmRb.node p) hnew
  have hcopy : Consistent { s with
      mmRb := s.mmRb.modify q fun _ => s.mmRb.node p
      vma := Function.update s.vma q { s.vma p with vmRegion := region }
      region := Function.update s.region region (s.region (s.vma p).vmRegion) } l := by
    refine h.congr htree ?_ rfl rfl rfl
    intro x hx
    have hxq : x ≠ q := fun he => hnew (he ▸ hx)
    simpa [hxq] using h.region x hx
  unfold VmaTree.splitCopy
  split
  · exact hcopy.setRegion.setArea fun hq => absurd hq hnew
  · exact hcopy.setRegion.setArea fun hq => absurd hq hnew

theorem splitCopy_vmRegion (region : Ptr) :
    ((splitCopy p q region addr newBelow s).vma q).vmRegion = region := by
  unfold splitCopy
  split <;> simp

theorem Consistent.splitCut (h : Consistent s l) (hp : p ∉ l) :
    Consistent (splitCut p addr newBelow s) l := by
  unfold VmaTree.splitCut
  split
  · exact h.setRegion.setArea fun hmem => absurd hmem hp
  · exact h.setRegion.setArea fun hmem => absurd hmem hp

theorem splitCut_vmRegion (x : Ptr) :
    ((splitCut p addr newBelow s).vma x).vmRegion = (s.vma x).vmRegion := by
  unfold splitCut
  by_cases hx : x = p
  · subst hx
    split <;> simp
  · split <;> simp [setArea_vma_of_ne hx]

theorem shrinkCut_vmRegion : ((shrinkCut p start stop s).vma p).vmRegion = (s.vma p).vmRegion := by
  unfold shrinkCut
  rw [setArea_vma_self]
  split <;> rfl

/-- The new structure for a VMA is not one of those in use. -/
def SplitEnv.Fresh (env : SplitEnv) (l : List Ptr) : Prop :=
  env.vma = 0#32 ∨ Addr env.vma ∧ env.vma ∉ l

theorem Consistent.split (h : Consistent s l) (hp : p ∈ l) (henv : env.Fresh l)
    (hfuel : 2 * l.length + 1 < fuel) :
    Runs (splitVma fuel env p addr newBelow) s fun _ s' =>
      ∃ l', Consistent s' l' ∧ p ∈ l' ∧ l'.length ≤ l.length + 1 := by
  unfold splitVma
  refine runs_read (a := s) rfl ?_
  split
  · exact runs_pure ⟨l, h, hp, Nat.le_succ _⟩
  · rename_i hok
    simp only [not_or] at hok
    obtain ⟨-, -, hregion, hvma⟩ := hok
    obtain ⟨haddr, hnew⟩ := henv.resolve_left hvma
    have hcopy := h.splitCopy hnew p env.region addr newBelow
    refine runs_bind_of_eq (a := ()) rfl ?_
    refine (hcopy.delete hp hfuel).then ?_
    rintro _ s₂ ⟨hs₂, l₂, hl₂, hnotin, hlen, h₂⟩
    refine runs_bind_of_eq (a := ()) rfl ?_
    have hpRegion : ((VmaTree.splitCut p addr newBelow s₂).vma p).vmRegion ≠ 0#32 := by
      rw [splitCut_vmRegion, hs₂]
      exact hcopy.region p hp
    refine ((h₂.splitCut hnotin).add (h.tree.isAddr hp) hnotin hpRegion (by omega)).then ?_
    rintro _ s₃ ⟨hs₃, l₃, hl₃, h₃⟩
    have hperm : l₃.Perm l := hl₃.trans hl₂.symm
    have hqRegion : (s₃.vma env.vma).vmRegion ≠ 0#32 := by
      rw [hs₃, splitCut_vmRegion, hs₂, splitCopy_vmRegion]
      exact hregion
    have hlen₃ := hperm.length_eq
    refine (h₃.add haddr (fun hmem => hnew (hperm.mem_iff.mp hmem)) hqRegion (by omega)).then ?_
    rintro _ s₄ ⟨-, l₄, hl₄, h₄⟩
    refine runs_pure ⟨l₄, h₄, ?_, ?_⟩
    · exact hl₄.mem_iff.mpr (List.mem_cons_of_mem _ (hperm.mem_iff.mpr hp))
    · have hlen₄ := hl₄.length_eq
      rw [List.length_cons] at hlen₄
      omega

theorem Consistent.shrink (h : Consistent s l) (hp : p ∈ l) (hfuel : 2 * l.length + 1 < fuel) :
    Runs (shrinkVma fuel p start stop) s fun _ s' => ∃ l', Consistent s' l' := by
  unfold shrinkVma
  refine (h.delete hp hfuel).then ?_
  rintro _ s₂ ⟨hs₂, l₂, -, hnotin, hlen, h₂⟩
  have hcut : Consistent (shrinkCut p start stop s₂) l₂ := h₂.setArea fun hmem => absurd hmem hnotin
  have hregion : ((shrinkCut p start stop s₂).vma p).vmRegion ≠ 0#32 := by
    rw [shrinkCut_vmRegion, hs₂]
    exact h.region p hp
  refine runs_bind_of_eq (a := ()) rfl ?_
  refine (hcut.add (h.tree.isAddr hp) hnotin hregion (by omega)).then ?_
  rintro _ s₃ ⟨-, l₃, -, h₃⟩
  exact ⟨0, _, rfl, l₃, h₃.setRegion⟩

/-! ### Calls -/

/-- The loop over the VMAs of a file ends at one of them, or at none. -/
theorem Consistent.munmapFile_loop (h : Consistent s l) (hp : p ∈ l) (hfuel : l.length < fuel) :
    Runs (loopM (munmapFileRound fuel start stop) fuel p) s fun q s' =>
      (q = 0#32 ∨ q ∈ l) ∧ s' = s := by
  obtain ⟨xs, ys, rfl⟩ := List.append_of_mem hp
  refine runs_loopM (fun n q s' => s' = s ∧ ∃ xs' ys', xs ++ p :: ys = xs' ++ q :: ys' ∧
    n = ys'.length) ?_ ⟨rfl, xs, ys, rfl, rfl⟩ (by simp at hfuel; omega)
  rintro n q s' ⟨hs, xs', ys', hl, rfl⟩
  rw [hs]
  rw [hl] at h hfuel ⊢
  unfold munmapFileRound
  refine runs_read (a := s.vma q) rfl ?_
  split
  · exact runs_pure ⟨.inl rfl, rfl⟩
  split
  · exact runs_pure ⟨.inr (by simp), rfl⟩
  refine (h.next hfuel).then ?_
  rintro _ s' ⟨rfl, hs⟩
  rw [hs]
  cases ys' with
  | nil =>
    rw [List.headD, if_pos rfl]
    exact runs_pure ⟨.inl rfl, rfl⟩
  | cons x ys' =>
    rw [List.headD, if_neg (h.tree.isAddr (p := x) (by simp)).ne]
    exact runs_pure ⟨ys'.length, Nat.lt_succ_self _, rfl, xs' ++ [q], ys', by simp, rfl⟩

theorem Consistent.munmapFile (h : Consistent s l) (hp : p ∈ l)
    (hfuel : 2 * l.length + 1 < fuel) :
    Runs (munmapFile fuel p start stop) s fun _ s' => ∃ l', Consistent s' l' := by
  unfold VmaTree.munmapFile
  refine (h.munmapFile_loop hp (by omega)).then ?_
  rintro q s' ⟨hq, hs⟩
  rw [hs]
  split
  · exact runs_pure ⟨l, h⟩
  · rename_i hne
    refine (h.delete (hq.resolve_left hne) hfuel).then ?_
    rintro _ s'' ⟨-, l', -, -, -, h'⟩
    exact runs_pure ⟨l', h'⟩

theorem Consistent.munmapChunk (h : Consistent s l) (hp : p ∈ l) (henv : env.Fresh l)
    (hfuel : 2 * l.length + 3 < fuel) :
    Runs (munmapChunk fuel env p start stop) s fun _ s' => ∃ l', Consistent s' l' := by
  unfold VmaTree.munmapChunk
  refine runs_read (a := s.vma p) rfl ?_
  split
  · refine (h.split hp henv (by omega)).then ?_
    rintro ret s' ⟨l', h', hp', hlen⟩
    split
    · exact runs_pure ⟨l', h'⟩
    · exact h'.shrink hp' (by omega)
  · exact h.shrink hp (by omega)

theorem Consistent.munmapAnon (h : Consistent s l) (hp : p ∈ l) (henv : env.Fresh l)
    (hfuel : 2 * l.length + 3 < fuel) :
    Runs (munmapAnon fuel env p start stop) s fun _ s' => ∃ l', Consistent s' l' := by
  unfold VmaTree.munmapAnon
  refine runs_read (a := s.vma p) rfl ?_
  split
  · refine (h.delete hp (by omega)).then ?_
    rintro _ s' ⟨-, l', -, -, -, h'⟩
    exact runs_pure ⟨l', h'⟩
  split
  · exact runs_pure ⟨l, h⟩
  split
  · exact runs_pure ⟨l, h⟩
  split
  · exact runs_pure ⟨l, h⟩
  · exact h.munmapChunk hp henv hfuel

theorem Consistent.munmap {len : BitVec 32} (h : Consistent s l) (henv : env.Fresh l)
    (hfuel : 2 * l.length + 3 < fuel) :
    Runs (doMunmap fuel env start len) s fun _ s' => ∃ l', Consistent s' l' := by
  unfold doMunmap
  split
  · exact runs_pure ⟨l, h⟩
  · refine (h.lookup_spec (findLook_searches start) (by omega)).then ?_
    rintro p s' ⟨hfound, hs⟩
    have h' := h.onlyCached hs
    split
    · exact runs_pure ⟨l, h'⟩
    · rename_i hne
      have hp : p ∈ l := (hfound.resolve_right fun hnone => hne hnone.1).1
      refine runs_read (a := s'.vma p) rfl ?_
      split
      · exact h'.munmapFile hp (by omega)
      · exact h'.munmapAnon hp henv hfuel

theorem Consistent.mremap {oldLen newLen newAddr : BitVec 32} {fixed : Bool} (h : Consistent s l)
    (hfuel : l.length < fuel) :
    Runs (doMremap fuel addr oldLen newLen fixed newAddr) s fun _ s' => ∃ l', Consistent s' l' := by
  unfold doMremap
  split
  · exact runs_pure ⟨l, h⟩
  split
  · exact runs_pure ⟨l, h⟩
  split
  · exact runs_pure ⟨l, h⟩
  refine (h.lookup_spec (findExactLook_searches addr (addr + oldLen)) hfuel).then ?_
  rintro p s' ⟨-, hs⟩
  have h' := h.onlyCached hs
  split
  · exact runs_pure ⟨l, h'⟩
  unfold mremapArea
  refine runs_read (a := s') rfl ?_
  dsimp only
  split
  · exact runs_pure ⟨l, h'⟩
  split
  · exact runs_pure ⟨l, h'⟩
  split
  · exact runs_pure ⟨l, h'⟩
  -- the end changes where the VMA is
  · exact ⟨_, _, rfl, l, h'.setArea fun hp => ⟨rfl, h'.region p hp⟩⟩

theorem Consistent.exit (h : Consistent s l) (hfuel : 2 * l.length + 1 < fuel) :
    Runs (exitMmap fuel) s fun _ s' => Consistent s' [] := by
  refine runs_loopM (fun n _ s' => n ≤ l.length ∧ ∃ l', Consistent s' l' ∧ n = l'.length) ?_
    ⟨Nat.le_refl _, l, h, rfl⟩ (by omega)
  rintro n - s' ⟨hn, l', h', rfl⟩
  unfold exitRound
  refine runs_read (a := s') rfl ?_
  cases hmmap : s'.mmap with
  | nil =>
    have hl : l' = [] := List.nil_perm.mp (hmmap ▸ h'.list)
    rw [hl] at h'
    exact runs_pure h'
  | cons p rest =>
    have hlist := h'.list
    rw [hmmap] at hlist
    obtain ⟨xs, ys, rfl⟩ := List.append_of_mem (hlist.mem_iff.mp List.mem_cons_self)
    have hrest : rest.Perm (xs ++ ys) := (hlist.trans List.perm_middle).cons_inv
    have hnotin : p ∉ rest := (List.nodup_cons.mp (hlist.nodup_iff.mpr h'.tree.nodup)).1
    have hdelete := deleteVmaFromMm_spec (s := { s' with mmap := rest }) h'.tree
      (show 2 * (xs ++ p :: ys).length + 1 < fuel by omega)
    refine runs_bind_of_eq (a := ()) rfl ?_
    refine hdelete.then ?_
    rintro _ s'' ⟨m', htree, rfl⟩
    simp only [List.length_append, List.length_cons] at hn ⊢
    refine runs_pure ⟨(xs ++ ys).length, ?_, ?_, xs ++ ys, ?_, rfl⟩
    · rw [List.length_append]
      omega
    · rw [List.length_append]
      omega
    · rw [List.erase_of_not_mem hnotin]
      exact h'.deleted htree hrest

end Split

/-! ### Runs -/

/-- Calls as the code makes them: a VMA that is added is a new structure with a region, and one
that is deleted, split or shrunk is a mapping of the process. -/
def Call.Issued (s : MmStruct) : Call → Prop
  | .addVmaToMm vma v => Addr vma ∧ vma ∉ s.mmap ∧ v.vmRegion ≠ 0#32
  | .deleteVmaFromMm vma => vma ∈ s.mmap
  | .splitVma env vma _ _ => vma ∈ s.mmap ∧ env.Fresh s.mmap
  | .shrinkVma vma _ _ => vma ∈ s.mmap
  | .doMunmap env _ _ => env.Fresh s.mmap
  | _ => True

/-- A bound on the rounds of loops that is no restriction. -/
def Enough (s : MmStruct) (fuel : Nat) : Prop := 2 * s.mmap.length + 3 < fuel

instance {s : MmStruct} {fuel : Nat} : Decidable (Enough s fuel) :=
  inferInstanceAs (Decidable (2 * s.mmap.length + 3 < fuel))

/-- The steps of a process. -/
def Issued (s : MmStruct) (c : Nat × Call) : Prop := Enough s c.1 ∧ c.2.Issued s

theorem SplitEnv.Fresh.of_perm {env : SplitEnv} {l' : List Ptr} (h : env.Fresh l)
    (hl : l.Perm l') : env.Fresh l' :=
  h.imp_right fun hnew => ⟨hnew.1, fun hmem => hnew.2 (hl.mem_iff.mpr hmem)⟩

/-- Every call returns and leaves the mappings consistent. -/
theorem Consistent.call {c : Call} (h : Consistent s l) (hfuel : Enough s fuel)
    (hc : c.Issued s) : Runs (c.run fuel) s fun _ s' => ∃ l', Consistent s' l' := by
  unfold Enough at hfuel
  rw [h.list.length_eq] at hfuel
  cases c with
  | addVmaToMm p v =>
    obtain ⟨hp, hnew, hregion⟩ := hc
    rw [h.list.mem_iff] at hnew
    refine runs_bind_of_eq (a := ()) rfl ?_
    have hset : Consistent (s.setArea p fun _ => v) l := h.setArea fun hmem => absurd hmem hnew
    refine (hset.add hp hnew (by simpa using hregion) (by omega)).imp ?_
    rintro _ s' ⟨-, l', -, h'⟩
    exact ⟨l', h'⟩
  | deleteVmaFromMm p =>
    refine (h.delete (h.list.mem_iff.mp hc) (by omega)).imp ?_
    rintro _ s' ⟨-, l', -, -, -, h'⟩
    exact ⟨l', h'⟩
  | splitVma env p addr newBelow =>
    refine (h.split (h.list.mem_iff.mp hc.1) (hc.2.of_perm h.list) (by omega)).then ?_
    rintro _ s' ⟨l', h', -⟩
    exact runs_pure ⟨l', h'⟩
  | shrinkVma p start stop =>
    exact (h.shrink (h.list.mem_iff.mp hc) (by omega)).then fun _ s' h' => runs_pure h'
  | doMremap addr oldLen newLen fixed newAddr =>
    exact (h.mremap (by omega)).then fun _ s' h' => runs_pure h'
  | doMunmap env start len =>
    exact (h.munmap (hc.of_perm h.list) hfuel).then fun _ s' h' => runs_pure h'
  | exitMmap => exact (h.exit (by omega)).imp fun _ s' h' => ⟨[], h'⟩
  | setRegion region r => exact ⟨(), _, rfl, l, h.setRegion⟩
  | findVma addr =>
    refine (h.lookup_spec (findLook_searches addr) (by omega)).then ?_
    exact fun _ s' hs => runs_pure ⟨l, h.onlyCached hs.2⟩
  | findVmaExact addr len =>
    refine (h.lookup_spec (findExactLook_searches addr _) (by omega)).then ?_
    exact fun _ s' hs => runs_pure ⟨l, h.onlyCached hs.2⟩

theorem reach_consistent (h : system.Reach Issued s) : ∃ l, Consistent s l := by
  have hinit : ∀ s, system.init s → ∃ l, Consistent s l := fun s hs =>
    ⟨[], MmStruct.Empty.consistent hs⟩
  refine System.Reach.invariant hinit ?_ h
  rintro s ⟨fuel, c⟩ s' ⟨l, hl⟩ ⟨hfuel, hc⟩ hstep
  obtain ⟨_, s'', hrun, h'⟩ := hl.call hfuel hc
  change (c.run fuel s).map _ = _ at hstep
  rw [hrun] at hstep
  cases hstep
  exact h'

/-- What a lookup returns, in terms of the list. -/
theorem Consistent.found_iff {hit : VmArea → Bool} (h : Consistent s l) (hp : Finds hit s l p) :
    (p ≠ 0#32 → p ∈ s.mmap ∧ hit (s.vma p)) ∧
      (p ≠ 0#32 ↔ ∃ q ∈ s.mmap, hit (s.vma q)) := by
  rcases hp with ⟨hmem, hhit⟩ | ⟨rfl, hnone⟩
  · have hlist : p ∈ s.mmap := h.list.mem_iff.mpr hmem
    have hne := (h.tree.isAddr hmem).ne
    exact ⟨fun _ => ⟨hlist, hhit⟩, iff_of_true hne ⟨p, hlist, hhit⟩⟩
  · refine ⟨fun hne => absurd rfl hne, iff_of_false (fun hne => hne rfl) ?_⟩
    rintro ⟨q, hq, hhit⟩
    exact hnone q (h.list.mem_iff.mp hq) hhit

theorem Consistent.length_lt (h : Consistent s l) (hfuel : Enough s fuel) : l.length < fuel := by
  unfold Enough at hfuel
  rw [h.list.length_eq] at hfuel
  omega

/-- If the VMAs of the process are among those of `Mm.Mmap`, what `find_vma` returns is what an
unmapping in the runs of `Mm.Mmap` takes for an answer. -/
theorem callOk_of_findVma (h : system.Reach Issued s) (hfuel : Enough s fuel) {u : Mmap.Mem}
    {view : Ptr → Mmap.Vma} (hview : ∀ p ∈ s.mmap, view p ∈ u.vmas ∧
      (view p).vmStart = (s.vma p).vmStart.toNat ∧ (view p).vmEnd = (s.vma p).vmEnd.toNat)
    {env : Mmap.MunmapAnswers} (hlast : ∀ v, env.last = some v → v ∈ u.vmas) (mm len : Nat)
    (addr : BitVec 32) :
    Runs (findVma fuel addr) s fun p _ => Mmap.CallOk u (.munmap mm addr.toNat len
      { env with found := if p = 0#32 then none else some (view p) }) := by
  obtain ⟨l, hl⟩ := reach_consistent h
  refine (hl.lookup_spec (findLook_searches addr) (hl.length_lt hfuel)).imp fun p _ hp => ?_
  refine ⟨fun v hv => ?_, hlast⟩
  split at hv
  next => cases hv
  next hne =>
    obtain rfl := Option.some.inj hv
    obtain ⟨hmem, hin⟩ := (hl.found_iff hp.1).1 hne
    obtain ⟨hv, hs, he⟩ := hview p hmem
    rw [hs, he]
    exact ⟨hv, by simpa [BitVec.le_def, BitVec.lt_def] using hin⟩

/-- In every state that calls of a process lead to: `find_vma` returns a VMA around the address
iff the process has one, `find_vma_exact` one with just this range iff the process has one, the
cache is empty or holds a VMA of the process, the tree, the list and the count are of the same
VMAs, and every further call returns. -/
theorem vma_lookup_correct {fuel : Nat} (h : system.Reach Issued s) (hfuel : Enough s fuel) :
    (∀ addr, Runs (findVma fuel addr) s fun p _ =>
      (p ≠ 0#32 → p ∈ s.mmap ∧ (s.vma p).vmStart ≤ addr ∧ addr < (s.vma p).vmEnd) ∧
      (p ≠ 0#32 ↔ ∃ q ∈ s.mmap, (s.vma q).vmStart ≤ addr ∧ addr < (s.vma q).vmEnd)) ∧
    (∀ addr len, Runs (findVmaExact fuel addr len) s fun p _ =>
      (p ≠ 0#32 → p ∈ s.mmap ∧ (s.vma p).vmStart = addr ∧ (s.vma p).vmEnd = addr + len) ∧
      (p ≠ 0#32 ↔ ∃ q ∈ s.mmap, (s.vma q).vmStart = addr ∧ (s.vma q).vmEnd = addr + len)) ∧
    (s.mmapCache = 0#32 ∨ s.mmapCache ∈ s.mmap) ∧
    (∃ t, Rep s.mmRb t ∧ t.IsRedBlack ∧ t.inorder.Perm s.mmap) ∧
    s.mmap.Nodup ∧ s.mapCount = s.mmap.length ∧
    ∀ c : Call, c.Issued s → (system.step s (fuel, c)).isSome := by
  obtain ⟨l, hl⟩ := reach_consistent h
  have hlen := hl.length_lt hfuel
  refine ⟨fun addr => ?_, fun addr len => ?_, ?_, ?_, ?_, ?_, fun c hc => ?_⟩
  · refine (hl.lookup_spec (findLook_searches addr) hlen).imp fun p _ hp => ?_
    simpa using hl.found_iff hp.1
  · refine (hl.lookup_spec (findExactLook_searches addr (addr + len)) hlen).imp fun p _ hp => ?_
    simpa using hl.found_iff hp.1
  · exact hl.cache.imp_right hl.list.mem_iff.mpr
  · obtain ⟨t, hrep, hblack, ht⟩ := hl.tree
    exact ⟨t, hrep, hblack, ht ▸ hl.list.symm⟩
  · exact hl.list.nodup_iff.mpr hl.tree.nodup
  · rw [hl.count, hl.list.length_eq]
  · obtain ⟨_, s', hrun, -⟩ := hl.call hfuel hc
    change ((c.run fuel s).map _).isSome
    rw [hrun]
    rfl

/-- No mappings yet, and regions of three pages at the same place. -/
def unmapped : MmStruct where
  mmRb := ⟨fun _ => ⟨0#32, 0#32, 0#32⟩, 0#32⟩
  mmap := []
  mmapCache := 0#32
  mapCount := 0
  vma := fun _ => ⟨0#32, 0#32, false, false, 0#32⟩
  region := fun _ => ⟨0x1000#32, 0x4000#32, 0x4000#32⟩

/-- The pages up to `stop` are mapped. -/
def mapCall (p stop : Ptr) : Nat × Call :=
  (8, .addVmaToMm p ⟨0x1000#32, stop, false, false, 0x10#32⟩)

/-- The mapping of one page is extended to two. -/
def mremapCall : Nat × Call := (8, .doMremap 0x1000#32 0x1000#32 0x2000#32 false 0#32)

/-- The states after one page is mapped, after all three are mapped from the same start on, and
after the first mapping is extended. -/
def mapped : MmStruct := (system.step unmapped (mapCall 0x100#32 0x2000#32)).get (by decide)
@[inherit_doc mapped] def mappedTwice : MmStruct :=
  (system.step mapped (mapCall 0x200#32 0x4000#32)).get (by decide)
@[inherit_doc mapped] def remapped : MmStruct :=
  (system.step mappedTwice mremapCall).get (by decide)

/-- After these calls an address in the third page is found, one behind it is not, and of the two
mappings with one start each is found by its size. -/
theorem vma_lookup_correct_remapped :
    Runs (findVma 8 0x3800#32) remapped (fun p _ => p ≠ 0#32) ∧
    Runs (findVma 8 0x4000#32) remapped (fun p _ => ¬ p ≠ 0#32) ∧
    Runs (findVmaExact 8 0x1000#32 0x2000#32) remapped (fun p _ => p = 0x100#32) ∧
    Runs (findVmaExact 8 0x1000#32 0x3000#32) remapped (fun p _ => p = 0x200#32) := by
  have hmap : Issued unmapped (mapCall 0x100#32 0x2000#32) :=
    ⟨by decide, ⟨by decide, by decide⟩, by decide, by decide⟩
  have hmap' : Issued mapped (mapCall 0x200#32 0x4000#32) :=
    ⟨by decide, ⟨by decide, by decide⟩, by decide, by decide⟩
  have hmremap : Issued mappedTwice mremapCall := ⟨by decide, trivial⟩
  have hreach : system.Reach Issued remapped :=
    .step (.step (.step (.init ⟨rfl, rfl, rfl, rfl⟩) hmap (Option.some_get _).symm) hmap'
      (Option.some_get _).symm) hmremap (Option.some_get _).symm
  have hmmap : remapped.mmap = [0x200#32, 0x100#32] := by decide
  have hvma : remapped.vma 0x100#32 = ⟨0x1000#32, 0x3000#32, false, false, 0x10#32⟩ := by decide
  have hvma' : remapped.vma 0x200#32 = ⟨0x1000#32, 0x4000#32, false, false, 0x10#32⟩ := by decide
  obtain ⟨hfind, hexact, -⟩ := vma_lookup_correct hreach (show Enough remapped 8 by decide)
  simp only [hmmap, List.mem_cons, List.not_mem_nil, or_false, exists_eq_or_imp, exists_eq_left,
    hvma, hvma'] at hfind hexact
  refine ⟨?_, ?_, ?_, ?_⟩
  · exact (hfind 0x3800#32).imp fun p _ hp => hp.2.mpr (by decide)
  · exact (hfind 0x4000#32).imp fun p _ hp => hp.2.not.mpr (by decide)
  · refine (hexact 0x1000#32 0x2000#32).imp fun p _ hp => ?_
    rcases hp.1 (hp.2.mpr (by decide)) with ⟨rfl | rfl, h⟩
    · exact absurd h (by rw [hvma']; decide)
    · rfl
  · refine (hexact 0x1000#32 0x3000#32).imp fun p _ hp => ?_
    rcases hp.1 (hp.2.mpr (by decide)) with ⟨rfl | rfl, h⟩
    · rfl
    · exact absurd h (by rw [hvma]; decide)

end LinuxStm32.Mm.VmaTree
