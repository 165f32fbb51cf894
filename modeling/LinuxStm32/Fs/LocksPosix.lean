import LinuxStm32.Fs.LocksRanges
import Mathlib.Data.List.TakeWhile

/-!
# What a call of `__posix_lock_file` does to the locks of an inode

In the list of an inode leases and `flock` locks come before the POSIX locks, those of one owner
follow each other, and the locks of an owner are a canonical list of extents. A call that returns 0
gives the owner the requested type on the requested bytes and changes nothing else; a call that
returns anything else changes nothing.
-/

namespace LinuxStm32.Fs

open Base

/-- Between two elements with the property there is none without it. -/
def Contiguous {α : Type} (p : α → Prop) (l : List α) : Prop :=
  ∀ x y z, [x, y, z].Sublist l → p x → p z → p y

section Contiguous

variable {α : Type} {p : α → Prop} {A O O' B : List α}

/-- The elements with the property are those in the middle. -/
theorem contiguous_mid (hA : ∀ x ∈ A, ¬ p x) (hO : ∀ x ∈ O, p x) (hB : ∀ x ∈ B, ¬ p x) :
    Contiguous p (A ++ (O ++ B)) := by
  intro x y z h hx hz
  obtain ⟨l₁, l₂, hl, h₁, h₂⟩ := List.sublist_append_iff.mp h
  obtain ⟨m₁, m₂, rfl, h₃, h₄⟩ := List.sublist_append_iff.mp h₂
  have hl₁ : l₁ = [] := by
    cases l₁ with
    | nil => rfl
    | cons w l =>
      obtain ⟨rfl, -⟩ := List.cons.inj hl
      exact absurd hx (hA x (h₁.subset List.mem_cons_self))
  have hm₂ : m₂ = [] := by
    rcases List.eq_nil_or_concat m₂ with hnil | ⟨m, w, rfl⟩
    · exact hnil
    · rw [List.concat_eq_append, ← List.append_assoc, ← List.append_assoc] at hl
      obtain ⟨-, hw⟩ := List.append_inj' (show [x, y] ++ [z] = _ from hl) rfl
      obtain rfl := List.singleton_inj.mp hw
      exact absurd hz (hB z (h₄.subset (by rw [List.concat_eq_append]; simp)))
  rw [hl₁, hm₂, List.nil_append, List.append_nil] at hl
  apply hO y
  apply h₃.subset
  rw [← hl]
  exact List.mem_cons_of_mem x List.mem_cons_self

/-- Elements without the property are put in the place of others. -/
theorem Contiguous.replace (h : Contiguous p (A ++ (O ++ B))) (hO : ∀ x ∈ O, ¬ p x)
    (hO' : ∀ x ∈ O', ¬ p x) (hB : O = [] → B = []) : Contiguous p (A ++ (O' ++ B)) := by
  intro x y z hsub hx hz
  obtain ⟨l₁, l₂, hl, h₁, h₂⟩ := List.sublist_append_iff.mp hsub
  obtain ⟨m₁, m₂, rfl, h₃, h₄⟩ := List.sublist_append_iff.mp h₂
  cases m₁ with
  | nil =>
    apply h x y z _ hx hz
    rw [hl]
    exact h₁.append (h₄.trans (List.sublist_append_right O B))
  | cons w m =>
    have hw : ¬ p w := hO' w (h₃.subset List.mem_cons_self)
    -- only the middle one of the three can be a new one
    have hthree : l₁ = [x] ∧ w = y ∧ m ++ m₂ = [z] := by
      cases l₁ with
      | nil => exact absurd ((List.cons.inj hl).1 ▸ hx) hw
      | cons a l =>
        obtain ⟨ha, hl⟩ := List.cons.inj hl
        cases l with
        | nil =>
          obtain ⟨hy, hl⟩ := List.cons.inj hl
          exact ⟨by rw [ha], hy.symm, hl.symm⟩
        | cons b l =>
          obtain ⟨-, hl⟩ := List.cons.inj hl
          cases l with
          | nil => exact absurd ((List.cons.inj hl).1 ▸ hz) hw
          | cons c l =>
            obtain ⟨-, hl⟩ := List.cons.inj hl
            simp at hl
    obtain ⟨rfl, rfl, hm⟩ := hthree
    cases m with
    | cons v m =>
      obtain ⟨rfl, -⟩ := List.cons.inj hm
      exact absurd hz (hO' v (h₃.subset (List.mem_cons_of_mem w List.mem_cons_self)))
    | nil =>
      rw [List.nil_append] at hm
      rw [hm] at h₄
      cases O with
      | nil =>
        rw [hB rfl] at h₄
        exact absurd (h₄.subset List.mem_cons_self) List.not_mem_nil
      | cons u O =>
        have hu := hO u List.mem_cons_self
        apply absurd (h x u z _ hx hz) hu
        apply h₁.append
        exact (h₄.trans (List.sublist_append_right O B)).cons_cons u

end Contiguous

variable {ω : Type} [DecidableEq ω] {fl : FileLock ω}

/-- The lock is a POSIX lock of the owner. -/
def isPosixOf (o : ω) (fl : FileLock ω) : Bool := fl.isPosix && decide (fl.flOwner = o)

/-- The POSIX locks of an owner. -/
def posixLocksOf (o : ω) (l : List (FileLock ω)) : List (FileLock ω) := l.filter (isPosixOf o)

/-- The type of lock that an owner has on a byte. -/
def lockTypeAt (l : List (FileLock ω)) (o : ω) (b : Int) : LockType :=
  (Extent.labelAt ((posixLocksOf o l).map FileLock.extent) b).getD .unlck

/-- The list of an inode. -/
structure LockListOk (l : List (FileLock ω)) : Prop where
  records : (addrs l).Nodup
  posixLast : l.Pairwise fun x y => x.flKind = .posix → y.flKind = .posix
  contiguous : ∀ o, Contiguous (fun fl => isPosixOf o fl = true) l
  canonical : ∀ o, Extent.Canonical ((posixLocksOf o l).map FileLock.extent)
  held : ∀ fl ∈ l, fl.flKind = .posix →
    fl.flType ≠ .unlck ∧ 0 ≤ fl.flStart ∧ fl.flEnd ≤ offsetMax

/-- No two owners have locks on one byte of which one is a write lock. -/
def ConflictFree (l : List (FileLock ω)) : Prop :=
  ∀ o o' b, o ≠ o' → lockTypeAt l o b = .wrlck → lockTypeAt l o' b = .unlck

theorem isPosixOf_iff {o : ω} :
    isPosixOf o fl = true ↔ fl.flKind = .posix ∧ fl.flOwner = o := by
  rw [isPosixOf, FileLock.isPosix, Bool.and_eq_true, decide_eq_true_iff, decide_eq_true_iff]

/-! ### The locks of the owner in the list -/

/-- The list around the POSIX locks of an owner. -/
structure RunSplit (l : List (FileLock ω)) (o : ω) (A O B : List (FileLock ω)) : Prop where
  eq : l = A ++ (O ++ B)
  before : ∀ fl ∈ A, ¬ isPosixOf o fl
  run : ∀ fl ∈ O, isPosixOf o fl
  after : ∀ fl ∈ B, ¬ isPosixOf o fl ∧ fl.flKind = .posix
  nil : O = [] → B = []

omit [DecidableEq ω] in
theorem filter_mid {p : FileLock ω → Bool} {A O B : List (FileLock ω)} (hA : ∀ fl ∈ A, ¬ p fl)
    (hO : ∀ fl ∈ O, p fl) (hB : ∀ fl ∈ B, ¬ p fl) : (A ++ (O ++ B)).filter p = O := by
  rw [List.filter_append, List.filter_append, List.filter_eq_nil_iff.mpr hA,
    List.filter_eq_nil_iff.mpr hB, List.filter_eq_self.mpr hO, List.nil_append, List.append_nil]

/-- The first loop stops at the locks of the owner, if there are any. -/
theorem LockListOk.runSplit {l : List (FileLock ω)} (h : LockListOk l) (o : ω) :
    RunSplit l o (l.takeWhile fun fl => !isPosixOf o fl)
      ((l.dropWhile fun fl => !isPosixOf o fl).takeWhile (isPosixOf o))
      ((l.dropWhile fun fl => !isPosixOf o fl).dropWhile (isPosixOf o)) := by
  have heq : l = l.takeWhile (fun fl => !isPosixOf o fl) ++
      ((l.dropWhile fun fl => !isPosixOf o fl).takeWhile (isPosixOf o) ++
        (l.dropWhile fun fl => !isPosixOf o fl).dropWhile (isPosixOf o)) := by
    rw [List.takeWhile_append_dropWhile, List.takeWhile_append_dropWhile]
  have hbefore : ∀ fl ∈ l.takeWhile (fun fl => !isPosixOf o fl), ¬ isPosixOf o fl := by
    intro fl hfl
    have := List.mem_takeWhile_imp hfl
    simpa using this
  have hrun : ∀ fl ∈ (l.dropWhile fun fl => !isPosixOf o fl).takeWhile (isPosixOf o),
      isPosixOf o fl := fun fl hfl => List.mem_takeWhile_imp hfl
  have hnil : (l.dropWhile fun fl => !isPosixOf o fl).takeWhile (isPosixOf o) = [] →
      (l.dropWhile fun fl => !isPosixOf o fl).dropWhile (isPosixOf o) = [] := by
    cases hd : l.dropWhile fun fl => !isPosixOf o fl with
    | nil => exact fun _ => rfl
    | cons fl rest =>
      have hfl : isPosixOf o fl := by
        have hhead := List.head_dropWhile_not (fun fl => !isPosixOf o fl)
          (show l.dropWhile _ ≠ [] by rw [hd]; exact nofun)
        simp only [hd] at hhead
        simpa using hhead
      rw [List.takeWhile_cons_of_pos hfl]
      exact nofun
  generalize hA : l.takeWhile (fun fl => !isPosixOf o fl) = A at *
  generalize hd : (l.dropWhile fun fl => !isPosixOf o fl) = d at *
  have hafter : ∀ fl ∈ d.dropWhile (isPosixOf o), ¬ isPosixOf o fl ∧ fl.flKind = .posix := by
    intro fl hfl
    obtain ⟨x, hx⟩ := List.exists_mem_of_ne_nil _ fun hO => by
      rw [hnil hO] at hfl
      exact List.not_mem_nil hfl
    have hpx := isPosixOf_iff.mp (hrun x hx)
    constructor
    · cases hB : d.dropWhile (isPosixOf o) with
      | nil => exact absurd (hB ▸ hfl) List.not_mem_nil
      | cons y B =>
        have hy : ¬ isPosixOf o y := by
          have hhead := List.head_dropWhile_not (isPosixOf o)
            (show d.dropWhile (isPosixOf o) ≠ [] by rw [hB]; exact nofun)
          simp only [hB] at hhead
          simpa using hhead
        rw [hB] at hfl
        rcases List.mem_cons.mp hfl with rfl | hmem
        · exact hy
        · intro hp
          apply hy
          apply h.contiguous o x y fl _ (hrun x hx) hp
          rw [heq, hB]
          apply List.Sublist.trans _ (List.sublist_append_right A _)
          apply (List.singleton_sublist.mpr hx).append
          exact (List.singleton_sublist.mpr hmem).cons_cons y
    · have hpair := h.posixLast
      rw [heq] at hpair
      have hpair := (List.pairwise_append.mp hpair).2.1
      exact (List.pairwise_append.mp hpair).2.2 x hx fl hfl hpx.1
  exact ⟨heq, hbefore, hrun, hafter, hnil⟩

variable {l A O O' B : List (FileLock ω)} {o : ω} {t : LockType} {s e : Int}

theorem RunSplit.posixLocksOf_eq (h : RunSplit l o A O B) : posixLocksOf o l = O := by
  rw [h.eq]
  exact filter_mid h.before h.run fun fl hfl => (h.after fl hfl).1

/-- The POSIX locks of an owner on the extents. -/
structure HeldOn (o : ω) (x : List (Extent LockType)) (l : List (FileLock ω)) : Prop where
  extents : l.map FileLock.extent = x
  posix : ∀ fl ∈ l, isPosixOf o fl

theorem heldOn_of_map_held {x : List (Extent LockType)}
    (h : O'.map FileLock.held = x.map (FileLock.posixHeld o)) : HeldOn o x O' := by
  constructor
  · have hmap := congrArg (List.map fun y => y.2.2) h
    rw [List.map_map, List.map_map] at hmap
    exact hmap.trans (List.map_id x)
  · intro fl hfl
    have hmem : fl.held ∈ x.map (FileLock.posixHeld o) := h ▸ List.mem_map_of_mem hfl
    obtain ⟨y, -, hy⟩ := List.mem_map.mp hmem
    obtain ⟨ho, hy⟩ := Prod.mk.inj hy
    exact isPosixOf_iff.mpr ⟨(Prod.mk.inj hy).1.symm, ho.symm⟩

theorem RunSplit.posixLocksOf_replace (h : RunSplit l o A O B) (hO' : ∀ fl ∈ O', isPosixOf o fl) :
    posixLocksOf o (A ++ (O' ++ B)) = O' :=
  filter_mid h.before hO' fun fl hfl => (h.after fl hfl).1

theorem not_isPosixOf_of_ne {o' : ω} (h : isPosixOf o fl) (hne : o' ≠ o) :
    ¬ isPosixOf o' fl := by
  intro h'
  apply hne
  rw [← (isPosixOf_iff.mp h').2, (isPosixOf_iff.mp h).2]

/-- The locks of the other owners are the same. -/
theorem RunSplit.posixLocksOf_other (h : RunSplit l o A O B) (hO' : ∀ fl ∈ O', isPosixOf o fl)
    {o' : ω} (hne : o' ≠ o) : posixLocksOf o' (A ++ (O' ++ B)) = posixLocksOf o' l := by
  have hnil (m : List (FileLock ω)) (hm : ∀ fl ∈ m, isPosixOf o fl) :
      m.filter (isPosixOf o') = [] :=
    List.filter_eq_nil_iff.mpr fun fl hfl => not_isPosixOf_of_ne (hm fl hfl) hne
  rw [h.eq, posixLocksOf, posixLocksOf, List.filter_append, List.filter_append,
    List.filter_append, List.filter_append, hnil O h.run, hnil O' hO']

/-- The locks that are not POSIX locks are the same. -/
theorem RunSplit.filter_not_posix (h : RunSplit l o A O B) (hO' : ∀ fl ∈ O', isPosixOf o fl) :
    (A ++ (O' ++ B)).filter (fun fl => !fl.isPosix) = l.filter (fun fl => !fl.isPosix) := by
  have hnil (m : List (FileLock ω)) (hm : ∀ fl ∈ m, isPosixOf o fl) :
      m.filter (fun fl => !fl.isPosix) = [] := by
    apply List.filter_eq_nil_iff.mpr
    intro fl hfl
    have hposix : fl.isPosix = true := (Bool.and_eq_true_iff.mp (hm fl hfl)).1
    rw [hposix]
    exact Bool.false_ne_true
  rw [h.eq, List.filter_append, List.filter_append, List.filter_append, List.filter_append,
    hnil O h.run, hnil O' hO']

/-- The bytes of an extent of the new list are requested ones, or were locked. -/
theorem mem_assign {x : List (Extent LockType)} (hx : Extent.Canonical x) (hse : s ≤ e)
    {y : Extent LockType} (hy : y ∈ Extent.assign t.label s e x) {b : Int} (hb : y.Has b) :
    ((s ≤ b ∧ b ≤ e) ∧ t.label = some y.label) ∨ ∃ z ∈ x, z.Has b ∧ z.label = y.label := by
  have hlabel := Extent.labelAt_of_mem (hx.assign hse) hy hb
  rw [Extent.labelAt_assign hx hse] at hlabel
  split at hlabel
  next hin => exact .inl ⟨hin, hlabel⟩
  next => exact .inr (Extent.exists_of_labelAt hlabel)

/-- The list is in order again when a range is assigned. -/
theorem LockListOk.replace (hl : LockListOk l) (h : RunSplit l o A O B) (h0 : 0 ≤ s) (hse : s ≤ e)
    (hmax : e ≤ offsetMax)
    (hO' : HeldOn o (Extent.assign t.label s e (O.map FileLock.extent)) O')
    (hnd : (addrs (A ++ (O' ++ B))).Nodup) : LockListOk (A ++ (O' ++ B)) := by
  have hcan : Extent.Canonical (O.map FileLock.extent) := h.posixLocksOf_eq ▸ hl.canonical o
  have hpair := hl.posixLast
  rw [h.eq, List.pairwise_append, List.pairwise_append] at hpair
  obtain ⟨hpA, ⟨-, hpB, -⟩, hpAB⟩ := hpair
  refine ⟨hnd, ?_, fun o' => ?_, fun o' => ?_, ?_⟩
  · rw [List.pairwise_append, List.pairwise_append]
    have hposix (fl : FileLock ω) (hfl : fl ∈ O') := (isPosixOf_iff.mp (hO'.posix fl hfl)).1
    refine ⟨hpA, ⟨?_, hpB, fun x _ y hy _ => (h.after y hy).2⟩, fun x hx y hy hkind => ?_⟩
    · apply List.pairwise_of_forall_mem_list
      intro x _ y hy _
      exact hposix y hy
    · rcases List.mem_append.mp hy with hy | hy
      · exact hposix y hy
      · exact (h.after y hy).2
  · by_cases heq : o' = o
    · rw [heq]
      exact contiguous_mid h.before hO'.posix fun fl hfl => (h.after fl hfl).1
    · have hcont := hl.contiguous o'
      rw [h.eq] at hcont
      exact hcont.replace (fun fl hfl => not_isPosixOf_of_ne (h.run fl hfl) heq)
        (fun fl hfl => not_isPosixOf_of_ne (hO'.posix fl hfl) heq) h.nil
  · by_cases heq : o' = o
    · rw [heq, h.posixLocksOf_replace hO'.posix, hO'.extents]
      exact hcan.assign hse
    · rw [h.posixLocksOf_other hO'.posix heq]
      exact hl.canonical o'
  · intro fl hfl hkind
    have hold (x : FileLock ω) (hx : x ∈ A ++ (O ++ B)) := hl.held x (h.eq ▸ hx)
    rcases List.mem_append.mp hfl with hA | hOB
    · exact hold fl (List.mem_append_left _ hA) hkind
    · rcases List.mem_append.mp hOB with hO | hB
      · have hmem : fl.extent ∈ Extent.assign t.label s e (O.map FileLock.extent) :=
          hO'.extents ▸ List.mem_map_of_mem hO
        have hle := (hcan.assign hse).nonempty _ hmem
        -- a lock of the owner before the call
        have hrun (z : Extent LockType) (hz : z ∈ O.map FileLock.extent) :
            z.label ≠ .unlck ∧ 0 ≤ z.lo ∧ z.hi ≤ offsetMax := by
          obtain ⟨x, hx, rfl⟩ := List.mem_map.mp hz
          exact hold x (List.mem_append_right _ (List.mem_append_left _ hx))
            (isPosixOf_iff.mp (h.run x hx)).1
        have hlo := mem_assign hcan hse hmem (b := fl.flStart) ⟨Int.le_refl _, hle⟩
        have hhi := mem_assign hcan hse hmem (b := fl.flEnd) ⟨hle, Int.le_refl _⟩
        refine ⟨?_, ?_, ?_⟩
        · rcases hlo with ⟨-, hlabel⟩ | ⟨z, hz, -, hlabel⟩
          · intro hunlck
            rw [LockType.label] at hlabel
            split at hlabel
            next => cases hlabel
            next ht => exact ht ((Option.some.inj hlabel).trans hunlck)
          · exact fun hunlck => (hrun z hz).1 (hlabel.trans hunlck)
        · rcases hlo with ⟨hin, -⟩ | ⟨z, hz, hhas, -⟩
          · omega
          · have := (hrun z hz).2.1
            have := hhas.1
            omega
        · rcases hhi with ⟨hin, -⟩ | ⟨z, hz, hhas, -⟩
          · omega
          · have := (hrun z hz).2.2
            have := hhas.2
            omega
      · exact hold fl (List.mem_append_right _ (List.mem_append_right _ hB)) hkind

/-! ### Where the other locks go -/

/-- Where `flock_lock_file` inserts a lock: before any POSIX lock (`fs/locks.c` 775–792). -/
def insertFlock (fl : FileLock ω) (l : List (FileLock ω)) : List (FileLock ω) :=
  l.takeWhile (fun x => !x.isPosix) ++ fl :: l.dropWhile fun x => !x.isPosix

/-- Where `generic_setlease` inserts a lease: after the leases (`fs/locks.c` 1388–1426). -/
def insertLease (fl : FileLock ω) (l : List (FileLock ω)) : List (FileLock ω) :=
  l.takeWhile (fun x => x.flKind = .lease) ++ fl :: l.dropWhile fun x => x.flKind = .lease

/-- A lock that is not a POSIX lock fits in before the POSIX locks. -/
theorem LockListOk.insert (h : LockListOk (A ++ B))
    (hA : ∀ x ∈ A, x.flKind ≠ .posix) (hfl : fl.flKind ≠ .posix)
    (hfresh : fl.addr ∉ addrs (A ++ B)) : LockListOk (A ++ fl :: B) := by
  have hnot (x : FileLock ω) (hx : x.flKind ≠ .posix) (o : ω) : ¬ isPosixOf o x :=
    fun hp => hx (isPosixOf_iff.mp hp).1
  obtain ⟨hpA, hpB, -⟩ := List.pairwise_append.mp h.posixLast
  have hfilter (o : ω) : posixLocksOf o (A ++ fl :: B) = posixLocksOf o (A ++ B) := by
    rw [posixLocksOf, posixLocksOf, List.filter_append, List.filter_append,
      List.filter_cons_of_neg (hnot fl hfl o)]
  refine ⟨nodup_insert h.records hfresh, ?_, fun o x y z hsub hx hz => ?_, fun o => ?_, ?_⟩
  · rw [List.pairwise_append, List.pairwise_cons]
    exact ⟨hpA, ⟨fun y _ hp => absurd hp hfl, hpB⟩, fun x hx y _ hp => absurd hp (hA x hx)⟩
  · -- the first of the three is a POSIX lock, so all three come after the new lock
    apply h.contiguous o x y z _ hx hz
    obtain ⟨l₁, l₂, hl, h₁, h₂⟩ := List.sublist_append_iff.mp hsub
    cases l₁ with
    | cons w l =>
      have hw : w = x := (List.cons.inj hl).1.symm
      exact absurd (hw ▸ hx) (hnot w (hA w (h₁.subset List.mem_cons_self)) o)
    | nil =>
      rw [List.nil_append] at hl
      rw [← hl] at h₂
      apply List.Sublist.trans _ (List.sublist_append_right A B)
      cases h₂ with
      | cons _ hB => exact hB
      | cons_cons _ _ => exact absurd hx (hnot fl hfl o)
  · rw [hfilter]
    exact h.canonical o
  · intro x hx hkind
    rcases List.mem_append.mp hx with hx | hx
    · exact absurd hkind (hA x hx)
    · rcases List.mem_cons.mp hx with rfl | hx
      · exact absurd hkind hfl
      · exact h.held x (List.mem_append_right A hx) hkind

/-- New `flock` locks and new leases keep the list in order. -/
theorem LockListOk.insert_other (h : LockListOk l) (hfl : fl.flKind ≠ .posix)
    (hfresh : fl.addr ∉ addrs l) :
    LockListOk (insertFlock fl l) ∧ LockListOk (insertLease fl l) := by
  constructor
  · rw [← List.takeWhile_append_dropWhile (p := fun x => !x.isPosix) (l := l)] at h hfresh
    apply h.insert _ hfl hfresh
    intro x hx hkind
    have hnot := List.mem_takeWhile_imp hx
    rw [FileLock.isPosix, decide_eq_true hkind] at hnot
    exact Bool.false_ne_true hnot
  · rw [← List.takeWhile_append_dropWhile (p := fun x => decide (x.flKind = .lease)) (l := l)]
      at h hfresh
    apply h.insert _ hfl hfresh
    intro x hx hkind
    have hlease := List.mem_takeWhile_imp hx
    rw [hkind] at hlease
    exact Bool.false_ne_true hlease

/-! ### The call -/

variable {request : LockRequest ω} {newFl newFl2 : Option Nat}

/-- The list is changed by assigning the range to the owner, or a record is missing. -/
theorem changeLocks_spec (hl : LockListOk l) (hkind : request.flKind = .posix)
    (hexists : request.flExists = false) (hse : request.flStart ≤ request.flEnd)
    (hnew : NewLocks newFl newFl2 l) :
    (∃ A O O' B, RunSplit l request.flOwner A O B ∧
      changeLocks l request newFl newFl2 = (0, A ++ (O' ++ B)) ∧
      HeldOn request.flOwner (Extent.assign request.flType.label request.flStart request.flEnd
        (O.map FileLock.extent)) O' ∧ (addrs (A ++ (O' ++ B))).Nodup) ∨
      changeLocks l request newFl newFl2 = (-enolck, l) := by
  have hskip : (fun fl : FileLock ω => !fl.isPosix || !request.posixSameOwner fl) =
      fun fl => !isPosixOf request.flOwner fl := by
    funext fl
    rw [isPosixOf, FileLock.posixSameOwner, Bool.not_and, decide_eq_decide.mpr eq_comm]
  obtain ⟨A, O, B, hs, hA, hd⟩ : ∃ A O B, RunSplit l request.flOwner A O B ∧
      (l.takeWhile fun fl => !isPosixOf request.flOwner fl) = A ∧
      (l.dropWhile fun fl => !isPosixOf request.flOwner fl) = O ++ B :=
    ⟨_, _, _, hl.runSplit request.flOwner, rfl, List.takeWhile_append_dropWhile.symm⟩
  have hrun : changeLocks l request newFl newFl2 =
      LockPass.run ⟨A, request.toFileLock, false, none, none⟩ (O ++ B) newFl newFl2 := by
    rw [changeLocks, LockPass.run, hskip, hexists, hA, hd]
  have hopen : LockPass.Open ⟨A, request.toFileLock, false, none, none⟩ A :=
    ⟨(List.append_nil A).symm, rfl, rfl, hkind, hse, fun h => absurd rfl h⟩
  have hisRun : IsRun request.flOwner O := by
    intro fl hfl
    obtain ⟨hk, ho⟩ := isPosixOf_iff.mp (hs.run fl hfl)
    refine ⟨ho, hk, (hl.held fl ?_ hk).1⟩
    rw [hs.eq]
    exact List.mem_append_right A (List.mem_append_left B hfl)
  have hends : Ends request.flOwner B := by
    intro fl hfl ho
    have hafter := hs.after fl (List.mem_of_mem_head? hfl)
    exact hafter.1 (isPosixOf_iff.mpr ⟨hafter.2, ho⟩)
  have hcan : Extent.Canonical (O.map FileLock.extent) :=
    hs.posixLocksOf_eq ▸ hl.canonical request.flOwner
  rw [hrun]
  rcases LockPass.run_open hopen hisRun hends hcan (.inl rfl) (hs.eq ▸ hnew) with hc | he
  · obtain ⟨O', hr, hheld, hnd⟩ := hc
    rw [hr] at hnd ⊢
    have happ : A ++ [] ++ O' ++ B = A ++ (O' ++ B) := by
      rw [List.append_nil, List.append_assoc]
    left
    refine ⟨A, O, O', B, hs, congrArg _ happ, heldOn_of_map_held hheld, ?_⟩
    rw [← happ]
    exact hnd
  · right
    rw [he, ← hs.eq]

/-- The type on a byte after the call, where the range is assigned. -/
theorem RunSplit.lockTypeAt_replace (hl : LockListOk l) (h : RunSplit l o A O B) (hse : s ≤ e)
    (hO' : HeldOn o (Extent.assign t.label s e (O.map FileLock.extent)) O') (b : Int) :
    lockTypeAt (A ++ (O' ++ B)) o b = if s ≤ b ∧ b ≤ e then t else lockTypeAt l o b := by
  have hcan : Extent.Canonical (O.map FileLock.extent) := h.posixLocksOf_eq ▸ hl.canonical o
  rw [lockTypeAt, h.posixLocksOf_replace hO'.posix, hO'.extents, Extent.labelAt_assign hcan hse,
    lockTypeAt, h.posixLocksOf_eq]
  split
  next =>
    rw [LockType.label]
    split
    next ht => exact ht.symm
    next => rfl
  next => rfl

/-- Without a conflicting lock in the list, no other owner has a conflicting lock on a byte of the
request. -/
theorem lockTypeAt_of_findConflict
    (hnone : findConflict l request.toFileLock = none) (hne : o ≠ request.flOwner) {b : Int}
    (hs : request.flStart ≤ b) (he : b ≤ request.flEnd) :
    (request.flType = .wrlck → lockTypeAt l o b = .unlck) ∧
      (request.flType ≠ .unlck → lockTypeAt l o b ≠ .wrlck) := by
  by_cases hunlck : request.flType = .unlck
  · rw [hunlck]
    exact ⟨nofun, fun h => absurd rfl h⟩
  rw [findConflict, if_neg hunlck, List.find?_eq_none] at hnone
  rw [lockTypeAt]
  cases hlabel : Extent.labelAt ((posixLocksOf o l).map FileLock.extent) b with
  | none => exact ⟨fun _ => rfl, fun _ => nofun⟩
  | some u =>
    -- the lock on the byte overlaps the request
    obtain ⟨x, hx, hhas, hu⟩ := Extent.exists_of_labelAt hlabel
    obtain ⟨fl, hfl, rfl⟩ := List.mem_map.mp hx
    obtain ⟨hmem, hposix⟩ := List.mem_filter.mp hfl
    obtain ⟨hkind, howner⟩ := isPosixOf_iff.mp hposix
    have hfree := hnone fl hmem
    have hoverlap : request.toFileLock.locksOverlap fl = true := by
      rw [FileLock.locksOverlap, Bool.and_eq_true, decide_eq_true_iff, decide_eq_true_iff]
      exact ⟨Int.le_trans hhas.1 he, Int.le_trans hs hhas.2⟩
    have hother : request.toFileLock.posixSameOwner fl = false :=
      decide_eq_false fun heq => hne (howner ▸ heq.symm)
    have hisPosix : fl.isPosix = true := decide_eq_true hkind
    rw [FileLock.posixLocksConflict, hisPosix, hoverlap, hother, FileLock.locksConflict] at hfree
    simp only [Bool.not_false, Bool.and_self, Bool.true_and, Bool.or_eq_true, decide_eq_true_eq,
      not_or] at hfree
    refine ⟨fun hw => absurd hw hfree.2, fun _ hw => hfree.1 ?_⟩
    rw [← hw, ← hu]
    rfl

/-- An assignment that was checked for conflicts brings none. -/
theorem ConflictFree.replace (hfree : ConflictFree l)
    (hnone : findConflict l request.toFileLock = none) {l' : List (FileLock ω)}
    (hown : ∀ b, lockTypeAt l' request.flOwner b =
      if request.flStart ≤ b ∧ b ≤ request.flEnd then request.flType
      else lockTypeAt l request.flOwner b)
    (hother : ∀ o, o ≠ request.flOwner → posixLocksOf o l' = posixLocksOf o l) :
    ConflictFree l' := by
  have hsame (o : ω) (ho : o ≠ request.flOwner) (b : Int) :
      lockTypeAt l' o b = lockTypeAt l o b := by
    rw [lockTypeAt, hother o ho, lockTypeAt]
  intro o o' b hne hw
  by_cases ho : o = request.flOwner
  · have ho' : o' ≠ request.flOwner := fun h => hne (ho.trans h.symm)
    rw [hsame o' ho']
    rw [ho, hown] at hw
    split at hw
    next hin => exact (lockTypeAt_of_findConflict hnone ho' hin.1 hin.2).1 hw
    next => exact hfree _ o' b ho'.symm hw
  · rw [hsame o ho] at hw
    by_cases ho' : o' = request.flOwner
    · rw [ho', hown]
      split
      next hin =>
        by_contra hunlck
        exact (lockTypeAt_of_findConflict hnone ho hin.1 hin.2).2 hunlck hw
      next => exact hfree o _ b ho hw
    · rw [hsame o' ho']
      exact hfree o o' b hne hw

/-- What a call is to do: it gives the owner the requested type on the requested bytes and leaves
everything else, or it leaves everything. -/
structure PosixLockSpec (l : List (FileLock ω)) (request : LockRequest ω) (r : LockResult ω) :
    Prop where
  errors : r.error = 0 ∨ r.error = -eagain ∨ r.error = -edeadlk ∨ r.error = -enolck ∨
    r.error = fileLockDeferred
  own : r.error = 0 → ∀ b, lockTypeAt r.iFlock request.flOwner b =
    if request.flStart ≤ b ∧ b ≤ request.flEnd then request.flType
    else lockTypeAt l request.flOwner b
  others : r.error = 0 → (∀ o, o ≠ request.flOwner → posixLocksOf o r.iFlock = posixLocksOf o l) ∧
    r.iFlock.filter (fun fl => !fl.isPosix) = l.filter (fun fl => !fl.isPosix)
  conflicts : r.error = 0 → ConflictFree l → ConflictFree r.iFlock
  list : r.error = 0 → LockListOk r.iFlock
  failed : r.error ≠ 0 → r.iFlock = l

/-- A conflict leaves everything. -/
theorem posixLockSpec_of_conflict (l : List (FileLock ω)) (request : LockRequest ω)
    (deadlock : Bool) (conflock : Option (FileLock ω)) :
    PosixLockSpec l request
      ⟨if !request.flSleep then -eagain else if deadlock then -edeadlk else fileLockDeferred, l,
        conflock⟩ := by
  have herr : (if !request.flSleep then -eagain
      else if deadlock then -edeadlk else fileLockDeferred) ≠ 0 := by
    split
    · decide
    · split <;> decide
  refine ⟨?_, fun h => absurd h herr, fun h => absurd h herr, fun h => absurd h herr,
    fun h => absurd h herr, fun _ => rfl⟩
  dsimp only
  split
  · exact .inr (.inl rfl)
  · split
    · exact .inr (.inr (.inl rfl))
    · exact .inr (.inr (.inr (.inr rfl)))

/-- A request that is not just a test does what it is to do, whatever the two allocations give. -/
theorem posix_lock_file_spec (hl : LockListOk l) (hkind : request.flKind = .posix)
    (haccess : request.flAccess = false) (hexists : request.flExists = false)
    (h0 : 0 ≤ request.flStart) (hse : request.flStart ≤ request.flEnd)
    (hmax : request.flEnd ≤ offsetMax) (hnew : NewLocks newFl newFl2 l) (blocked : List (ω × ω)) :
    PosixLockSpec l request (posixLockFile blocked l request newFl newFl2) := by
  rw [posixLockFile]
  dsimp only
  have hnew' (c : Bool) : NewLocks (if c then newFl else none) (if c then newFl2 else none) l := by
    cases c with
    | true => exact hnew
    | false => exact ⟨hnew.nodup, nofun, nofun, nofun⟩
  cases hc : findConflict l request.toFileLock with
  | some fl => exact posixLockSpec_of_conflict l request _ (some fl)
  | none =>
    rw [haccess, if_neg Bool.false_ne_true]
    rcases changeLocks_spec hl hkind hexists hse (hnew' _) with
      ⟨A, O, O', B, hs, hr, hO', hnd⟩ | hr
    · rw [hr]
      have hown := hs.lockTypeAt_replace hl hse hO'
      have hother (o : ω) (ho : o ≠ request.flOwner) := hs.posixLocksOf_other hO'.posix ho
      exact ⟨.inl rfl, fun _ => hown, fun _ => ⟨hother, hs.filter_not_posix hO'.posix⟩,
        fun _ hfree => hfree.replace hc hown hother, fun _ => hl.replace hs h0 hse hmax hO' hnd,
        fun h => absurd rfl h⟩
    · rw [hr]
      have herr : -enolck ≠ 0 := by decide
      exact ⟨.inr (.inr (.inr (.inl rfl))), fun h => absurd h herr, fun h => absurd h herr,
        fun h => absurd h herr, fun h => absurd h herr, fun _ => rfl⟩

/-- The middle of a write lock is unlocked, for which both records are needed. -/
theorem posix_lock_file_spec_split :
    let l : List (FileLock Bool) := [⟨0, true, .posix, .wrlck, 0, 99⟩]
    let request : LockRequest Bool := ⟨⟨1, true, .posix, .unlck, 10, 19⟩, false, false, false⟩
    LockListOk l ∧ PosixLockSpec l request (posixLockFile [] l request (some 2) (some 3)) ∧
      (posixLockFile [] l request (some 2) (some 3)).iFlock =
        [⟨3, true, .posix, .wrlck, 0, 9⟩, ⟨0, true, .posix, .wrlck, 20, 99⟩] := by
  intro l request
  have hl : LockListOk l := by
    refine ⟨by decide, List.pairwise_singleton _ _, fun o x y z h => ?_, fun o => ?_, ?_⟩
    · exact absurd h.length_le (show ¬ 3 ≤ 1 by decide)
    · cases o with
      | false => exact Extent.canonical_nil
      | true =>
        apply Extent.canonical_nil.cons
        · decide
        · exact fun y hy => absurd hy List.not_mem_nil
    · intro fl hfl _
      rw [List.mem_singleton.mp hfl]
      decide
  have hnew : NewLocks (some 2) (some 3) l := by
    refine ⟨by decide, fun a ha => ?_, fun a ha => ?_, fun a ha => ?_⟩
    · rw [← Option.mem_some_iff.mp ha]
      decide
    · rw [← Option.mem_some_iff.mp ha]
      decide
    · rw [← Option.mem_some_iff.mp ha]
      decide
  exact ⟨hl, posix_lock_file_spec hl rfl rfl rfl (by decide) (by decide) (by decide) hnew [],
    by decide⟩

end LinuxStm32.Fs
