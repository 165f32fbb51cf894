import LinuxStm32.Fs.Locks
import Mathlib.Data.List.Nodup

/-!
# POSIX record locks implement byte ranges

The pass of `__posix_lock_file` over the locks of the owner (`fs/locks.c` 857–981) is an assignment
of the requested type to the requested range: the locks of an owner are a canonical list of extents
labelled with lock types, and what the pass merges, replaces, deletes, cuts and inserts gives the
list that `Extent.assign` gives. The other locks of the list stay where they are.
-/

namespace LinuxStm32.Fs

open Base

variable {ω : Type}

/-- The label that a lock type gives to a range: unlocking takes the label away. -/
def LockType.label (t : LockType) : Option LockType := if t = .unlck then none else some t

theorem LockType.label_eq_some {t u : LockType} (hu : u ≠ .unlck) :
    t.label = some u ↔ t = u := by
  rw [label]
  split
  next ht =>
    rw [ht]
    exact ⟨nofun, fun h => absurd h.symm hu⟩
  next => exact Option.some_inj

namespace FileLock

/-- The bytes of a lock, labelled with its type. -/
def extent (fl : FileLock ω) : Extent LockType := ⟨fl.flStart, fl.flEnd, fl.flType⟩

/-- A lock but for the address of its record. -/
def held (fl : FileLock ω) : ω × LockKind × Extent LockType := (fl.flOwner, fl.flKind, fl.extent)

/-- The POSIX lock of an owner on an extent. -/
def posixHeld (o : ω) (x : Extent LockType) : ω × LockKind × Extent LockType := (o, .posix, x)

/-- The locks `O` with the range of a request assigned. -/
def assigned (fl : FileLock ω) (O : List (FileLock ω)) : List (Extent LockType) :=
  Extent.assign fl.flType.label fl.flStart fl.flEnd (O.map extent)

/-- The range of a request. -/
def emitted (fl : FileLock ω) : List (Extent LockType) :=
  Extent.emit fl.flType.label fl.flStart fl.flEnd

/-- The lock ends at `e`. -/
def endAt (e : Int) (fl : FileLock ω) : FileLock ω := { fl with flEnd := e }

/-- The lock starts at `s`. -/
def startAt (s : Int) (fl : FileLock ω) : FileLock ω := { fl with flStart := s }

end FileLock

/-- The addresses of the records of a list. -/
def addrs (l : List (FileLock ω)) : List Nat := l.map FileLock.addr

/-- The records of the list are different ones, and so are the new records. -/
structure NewLocks (newFl newFl2 : Option Nat) (l : List (FileLock ω)) : Prop where
  nodup : (addrs l).Nodup
  fresh : ∀ a ∈ newFl, a ∉ addrs l
  fresh2 : ∀ a ∈ newFl2, a ∉ addrs l
  distinct : ∀ a ∈ newFl, a ∉ newFl2

/-- POSIX locks of one owner. -/
def IsRun (o : ω) (l : List (FileLock ω)) : Prop :=
  ∀ fl ∈ l, fl.flOwner = o ∧ fl.flKind = .posix ∧ fl.flType ≠ .unlck

theorem IsRun.tail {o : ω} {fl : FileLock ω} {l : List (FileLock ω)} (h : IsRun o (fl :: l)) :
    IsRun o l :=
  fun x hx => h x (List.mem_cons_of_mem fl hx)

/-- The list does not go on with a lock of the owner. -/
def Ends (o : ω) (l : List (FileLock ω)) : Prop := ∀ fl ∈ l.head?, fl.flOwner ≠ o

/-! ### Writing to records -/

section Records

variable {f : FileLock ω → FileLock ω} {l m : List (FileLock ω)} {a : Nat}

theorem addrs_append : addrs (l ++ m) = addrs l ++ addrs m := List.map_append

theorem addrs_startAt (s : Int) (l : List (FileLock ω)) :
    addrs (l.map (FileLock.startAt s)) = addrs l := List.map_map

theorem addrs_endAt (e : Int) (l : List (FileLock ω)) :
    addrs (l.map (FileLock.endAt e)) = addrs l := List.map_map

theorem setLock_append : setLock a f (l ++ m) = setLock a f l ++ setLock a f m := List.map_append

theorem setLock_of_notMem (h : a ∉ addrs l) : setLock a f l = l := by
  have hid : ∀ fl ∈ l, (if fl.addr = a then f fl else fl) = id fl := by
    intro fl hfl
    apply if_neg
    intro ha
    exact h (ha ▸ List.mem_map_of_mem hfl)
  rw [setLock, List.map_congr_left hid, List.map_id]

/-- Of different records, a pointer into the list writes to one. -/
theorem setThrough_eq {ptr : Option (FileLock ω)} (h : (addrs (l ++ ptr.toList ++ m)).Nodup) :
    setThrough ptr f (l ++ ptr.toList ++ m) = l ++ ptr.toList.map f ++ m := by
  cases ptr with
  | none => rfl
  | some fl =>
    have hmid : addrs (l ++ (some fl).toList ++ m) = addrs l ++ fl.addr :: addrs m := by
      rw [addrs_append, addrs_append, List.append_assoc]
      rfl
    rw [hmid, List.nodup_middle, List.nodup_cons, List.mem_append, not_or] at h
    rw [setThrough, setLock_append, setLock_append, setLock_of_notMem h.1.1,
      setLock_of_notMem h.1.2]
    show l ++ [if fl.addr = fl.addr then f fl else fl] ++ m = _
    rw [if_pos rfl]
    rfl

theorem addrs_setLock (hf : ∀ fl, (f fl).addr = a) (l : List (FileLock ω)) :
    addrs (setLock a f l) = addrs l := by
  rw [addrs, setLock, List.map_map]
  apply List.map_congr_left
  intro fl _
  show (if fl.addr = a then f fl else fl).addr = fl.addr
  split
  next h => rw [hf, h]
  next => rfl

/-- A new record fits between the others. -/
theorem nodup_insert {fl : FileLock ω} (h : (addrs (l ++ m)).Nodup)
    (hfl : fl.addr ∉ addrs (l ++ m)) :
    (addrs (l ++ fl :: m)).Nodup := by
  rw [addrs_append] at h hfl ⊢
  exact List.nodup_middle.mpr (List.nodup_cons.mpr ⟨hfl, h⟩)

theorem nodup_delete {fl : FileLock ω} (h : (addrs (l ++ fl :: m)).Nodup) :
    (addrs (l ++ m)).Nodup :=
  h.sublist (((List.sublist_cons_self fl m).append_left l).map _)

end Records

/-! ### What the pass ends with -/

namespace LockPass

/-- The pass and what follows it. -/
def run (p : LockPass ω) [DecidableEq ω] (l : List (FileLock ω)) (newFl newFl2 : Option Nat) :
    Int × List (FileLock ω) :=
  (p.ownerLocks l).1.finish (p.ownerLocks l).2 false newFl newFl2

/-- The range is assigned: what follows the locks `P` before the owner's, and the lock that the
request cuts from above, are the owner's locks `O` with the range of the request assigned. -/
def Carved (p : LockPass ω) (P O B : List (FileLock ω)) (r : Int × List (FileLock ω)) : Prop :=
  ∃ O', r = (0, P ++ p.left.toList.map (FileLock.endAt (p.request.flStart - 1)) ++ O' ++ B) ∧
    O'.map FileLock.held = (p.request.assigned O).map (FileLock.posixHeld p.request.flOwner) ∧
    (addrs r.2).Nodup

/-- The range is assigned, or a record is missing and nothing has changed. -/
def Settled (p : LockPass ω) (P O B : List (FileLock ω)) (r : Int × List (FileLock ω)) : Prop :=
  Carved p P O B r ∨ r = (-enolck, p.passed ++ (O ++ B))

variable {p p' : LockPass ω} {P Q R O O' B : List (FileLock ω)} {newFl newFl2 : Option Nat}
  {fl : FileLock ω}

/-- A request that leaves no lock in two pieces cuts the locks at its ends. -/
theorem finish_eq (mid : List (FileLock ω)) (hpassed : p.passed = P ++ p.left.toList ++ Q)
    (hins : p.insertNew false newFl (p.right.toList ++ R) = .ok (mid ++ (p.right.toList ++ R)))
    (hnd : (addrs (P ++ p.left.toList ++ (Q ++ mid ++ p.right.toList ++ R))).Nodup) :
    p.finish (p.right.toList ++ R) false newFl newFl2 =
      (0, P ++ p.left.toList.map (FileLock.endAt (p.request.flStart - 1)) ++
        (Q ++ mid ++ p.right.toList.map (FileLock.startAt (p.request.flEnd + 1)) ++ R)) := by
  have hne : ¬ (p.right.isSome ∧ p.leftIsRight) := by
    rintro ⟨hsome, heq⟩
    obtain ⟨r, hr⟩ := Option.isSome_iff_exists.mp hsome
    rw [leftIsRight, hr, Option.map_some] at heq
    obtain ⟨fl, hfl, ha⟩ := Option.map_eq_some_iff.mp heq
    rw [hfl, hr, addrs_append, addrs_append] at hnd
    apply (List.nodup_append.mp hnd).2.2 fl.addr _ r.addr _ ha
    · exact List.mem_append_right _ List.mem_cons_self
    · apply List.mem_map_of_mem
      simp
  have hpiece : p.leftPiece newFl2 = none := by
    unfold leftPiece
    split
    next r a hr =>
      apply if_neg
      intro heq
      exact hne ⟨by rw [hr]; rfl, heq⟩
    next => rfl
  rw [finish, if_neg fun h => hne ⟨h.1, h.2.1⟩, hins]
  dsimp only
  have hright : p.passed ++ [] ++ (mid ++ (p.right.toList ++ R)) =
      (P ++ p.left.toList ++ Q ++ mid) ++ p.right.toList ++ R := by
    rw [hpassed]
    simp only [List.append_assoc, List.nil_append]
  have hnd1 : (addrs ((P ++ p.left.toList ++ Q ++ mid) ++ p.right.toList ++ R)).Nodup := by
    simpa only [List.append_assoc] using hnd
  rw [cutEnds, hpiece, Option.none_or, Option.toList_none, hright, setThrough_eq hnd1]
  have hleft (r : List (FileLock ω)) : (P ++ p.left.toList ++ Q ++ mid) ++ r ++ R =
      P ++ p.left.toList ++ (Q ++ mid ++ r ++ R) := by
    simp only [List.append_assoc]
  have hnd2 : (addrs (P ++ p.left.toList ++ (Q ++ mid ++ p.right.toList.map
      (FileLock.startAt (p.request.flEnd + 1)) ++ R))).Nodup := by
    simp only [addrs_append] at hnd ⊢
    rwa [addrs_startAt]
  have hstart : (fun fl : FileLock ω => { fl with flStart := p.request.flEnd + 1 }) =
      FileLock.startAt (p.request.flEnd + 1) := rfl
  rw [hstart, hleft, setThrough_eq hnd2]
  rfl

/-- Where the pieces are those of the assignment, the range is assigned. -/
theorem carved_of_finish (mid : List (FileLock ω)) (hpassed : p.passed = P ++ p.left.toList ++ Q)
    (hins : p.insertNew false newFl (p.right.toList ++ (R ++ B)) =
      .ok (mid ++ (p.right.toList ++ (R ++ B))))
    (hnd : (addrs (P ++ p.left.toList ++ (Q ++ mid ++ p.right.toList ++ (R ++ B)))).Nodup)
    (hheld : (Q ++ mid ++ p.right.toList.map (FileLock.startAt (p.request.flEnd + 1)) ++ R).map
        FileLock.held = (p.request.assigned O).map (FileLock.posixHeld p.request.flOwner)) :
    Carved p P O B (p.finish (p.right.toList ++ (R ++ B)) false newFl newFl2) := by
  rw [finish_eq mid hpassed hins hnd]
  refine ⟨_, ?_, hheld, ?_⟩
  · simp only [List.append_assoc]
  · simp only [addrs_append] at hnd ⊢
    rwa [addrs_endAt, addrs_startAt]

/-- A lock that the request breaks in two. -/
theorem finish_split (mid : List (FileLock ω)) {addr : Nat} (hleft : p.left = some fl)
    (hright : p.right = some fl)
    (hins : p.insertNew false newFl (fl :: R) = .ok (mid ++ fl :: R))
    (hnd : (addrs (p.passed ++ { fl with addr := addr } :: (mid ++ fl :: R))).Nodup) :
    p.finish (fl :: R) false newFl (some addr) =
      (0, p.passed ++ ({ fl with addr := addr, flEnd := p.request.flStart - 1 } ::
        (mid ++ fl.startAt (p.request.flEnd + 1) :: R))) := by
  have heq : p.leftIsRight := by rw [leftIsRight, hleft, hright]
  have hpiece : p.leftPiece (some addr) = some { fl with addr := addr } := by
    simp only [leftPiece, hright]
    exact if_pos heq
  rw [finish, if_neg fun h => Option.some_ne_none _ h.2.2, hins]
  dsimp only
  rw [cutEnds, hpiece, Option.some_or, hright]
  have happ (x : FileLock ω) (g : FileLock ω) :
      p.passed ++ (some g).toList ++ (mid ++ x :: R) =
        (p.passed ++ g :: mid) ++ (some x).toList ++ R := by
    simp
  have hnd1 : (addrs ((p.passed ++ { fl with addr := addr } :: mid) ++ (some fl).toList ++
      R)).Nodup := by
    rw [← happ]
    simpa using hnd
  rw [happ, setThrough_eq hnd1]
  have happ2 : (p.passed ++ { fl with addr := addr } :: mid) ++ (some fl).toList.map
        (FileLock.startAt (p.request.flEnd + 1)) ++ R =
      p.passed ++ (some { fl with addr := addr }).toList ++
        (mid ++ fl.startAt (p.request.flEnd + 1) :: R) := by
    simp
  have hstart : (fun fl : FileLock ω => { fl with flStart := p.request.flEnd + 1 }) =
      FileLock.startAt (p.request.flEnd + 1) := rfl
  have hnd2 : (addrs (p.passed ++ (some { fl with addr := addr }).toList ++
      (mid ++ fl.startAt (p.request.flEnd + 1) :: R))).Nodup := by
    rw [← happ2]
    simp only [addrs_append] at hnd1 ⊢
    rwa [addrs_startAt]
  rw [hstart, happ2, setThrough_eq hnd2]
  simp

/-! ### The pass over the locks of the owner -/

theorem Carved.congr {r : Int × List (FileLock ω)} (h : Carved p' P O' B r)
    (hleft : p'.left.toList.map (FileLock.endAt (p'.request.flStart - 1)) =
      p.left.toList.map (FileLock.endAt (p.request.flStart - 1)))
    (howner : p'.request.flOwner = p.request.flOwner)
    (hassign : p'.request.assigned O' = p.request.assigned O) : Carved p P O B r := by
  rw [Carved, hleft, howner, hassign] at h
  exact h

/-- A lock in front of the assigned range stays as it is, or is cut there. -/
theorem Settled.cons {r : Int × List (FileLock ω)} {x : Extent LockType} {g : FileLock ω}
    (h : Settled p' Q O B r) (hpassed : p'.passed = p.passed ++ [g])
    (hleft : Q ++ p'.left.toList.map (FileLock.endAt (p'.request.flStart - 1)) = P ++ [fl])
    (hleft' : p.left = none) (hfl : fl.held = FileLock.posixHeld p.request.flOwner x)
    (howner : p'.request.flOwner = p.request.flOwner)
    (hassign : p.request.assigned (g :: O) = x :: p'.request.assigned O) :
    Settled p P (g :: O) B r := by
  rcases h with ⟨l, hr, hheld, hnd⟩ | he
  · refine .inl ⟨fl :: l, ?_, ?_, hnd⟩
    · rw [hr, hleft, hleft']
      simp
    · rw [List.map_cons, hheld, hfl, howner, hassign, List.map_cons]
  · right
    rw [he, hpassed, List.append_assoc]
    rfl

/-- The lock that the request puts into the list. -/
def placed (fl : FileLock ω) : List (FileLock ω) := if fl.flType = .unlck then [] else [fl]

theorem map_held_placed (h : fl.flKind = .posix) :
    (placed fl).map FileLock.held = fl.emitted.map (FileLock.posixHeld fl.flOwner) := by
  rw [placed, FileLock.emitted, LockType.label]
  split
  next => rfl
  next =>
    show [(fl.flOwner, fl.flKind, fl.extent)] = _
    rw [h]
    rfl

theorem map_held_of_isRun {o : ω} (h : IsRun o O) :
    O.map FileLock.held = (O.map FileLock.extent).map (FileLock.posixHeld o) := by
  rw [List.map_map]
  apply List.map_congr_left
  intro fl hfl
  obtain ⟨ho, hk, _⟩ := h fl hfl
  show (fl.flOwner, fl.flKind, fl.extent) = _
  rw [ho, hk]
  rfl

theorem held_startAt {o : ω} (h : IsRun o (fl :: O)) (s : Int) :
    (fl.startAt s).held = FileLock.posixHeld o { fl.extent with lo := s } := by
  obtain ⟨ho, hk, _⟩ := h fl List.mem_cons_self
  show (fl.flOwner, fl.flKind, _) = _
  rw [ho, hk]
  rfl

/-- The request is in the list, or it unlocks and has met a lock. -/
structure Added (p : LockPass ω) (P : List (FileLock ω)) : Prop where
  passed : p.passed = P ++ p.left.toList ++ placed p.request
  added : p.added = true
  right : p.right = none
  kind : p.request.flKind = .posix

theorem Added.insertNew_eq (h : Added p P) (l : List (FileLock ω)) :
    p.insertNew false newFl l = .ok ([] ++ l) := by
  unfold insertNew
  rw [if_pos h.added]
  rfl

/-- The request is written where it is in the list. -/
theorem Added.setRequest_end (h : Added p P) (hunlck : p.request.flType ≠ .unlck) (e : Int)
    (hnd : (addrs p.passed).Nodup) : Added (p.setRequest (p.request.endAt e)) P := by
  have hplaced (fl : FileLock ω) (hfl : fl.flType ≠ .unlck) : placed fl = (some fl).toList ++ [] :=
    if_neg hfl
  refine ⟨?_, h.added, h.right, h.kind⟩
  have hpassed := h.passed
  rw [hplaced _ hunlck, ← List.append_assoc] at hpassed
  show setThrough (some p.request) (fun _ => p.request.endAt e) p.passed = _
  rw [hpassed] at hnd ⊢
  rw [setThrough_eq hnd, List.append_assoc]
  exact congrArg _ (hplaced (p.request.endAt e) hunlck).symm

/-- The request ends below all further locks. -/
theorem Added.carved_stop (h : Added p P) (hO : IsRun p.request.flOwner O)
    (hassign : p.request.assigned O = p.request.emitted ++ O.map FileLock.extent)
    (hnd : (addrs (p.passed ++ (O ++ B))).Nodup) :
    Carved p P O B (p.finish (O ++ B) false newFl newFl2) := by
  have hright : p.right.toList = [] := by
    rw [h.right]
    rfl
  have hfin := @carved_of_finish ω p P (placed p.request) O O B newFl newFl2 [] h.passed
    (h.insertNew_eq _)
  rw [hright] at hfin
  apply hfin
  · rw [h.passed] at hnd
    simpa only [List.append_assoc, List.append_nil, List.nil_append] using hnd
  · rw [hassign, List.map_append, List.map_append, List.map_append, List.map_append,
      map_held_placed h.kind, map_held_of_isRun hO]
    simp only [List.map_nil, List.append_nil]

/-- The request ends inside a lock. -/
theorem Added.carved_right (h : Added p P) (hO : IsRun p.request.flOwner (fl :: O))
    (hassign : p.request.assigned (fl :: O) =
      p.request.emitted ++ { fl.extent with lo := p.request.flEnd + 1 } :: O.map FileLock.extent)
    (hnd : (addrs (p.passed ++ (fl :: O ++ B))).Nodup) :
    Carved p P (fl :: O) B
      ({ p with right := some fl }.finish (fl :: O ++ B) false newFl newFl2) := by
  apply @carved_of_finish ω { p with right := some fl } P (placed p.request) O (fl :: O) B newFl
    newFl2 [] h.passed
  · unfold insertNew
    exact if_pos h.added
  · rw [h.passed] at hnd
    simpa using hnd
  · show (placed p.request ++ [] ++ [fl.startAt (p.request.flEnd + 1)] ++ O).map FileLock.held = _
    dsimp only
    rw [hassign, List.map_append, List.map_append, List.map_append, List.map_append,
      map_held_placed h.kind, List.map_cons, List.map_cons, map_held_of_isRun hO.tail,
      held_startAt hO]
    simp

/-- The request has met no lock, or only one that it cuts from above. -/
structure Open (p : LockPass ω) (P : List (FileLock ω)) : Prop where
  passed : p.passed = P ++ p.left.toList
  added : p.added = false
  right : p.right = none
  kind : p.request.flKind = .posix
  le : p.request.flStart ≤ p.request.flEnd
  left : p.left ≠ none → p.request.flType ≠ .unlck

/-- Without the new record nothing is done. -/
theorem finish_of_none (hadded : p.added = false) (hunlck : p.request.flType ≠ .unlck)
    (l : List (FileLock ω)) : p.finish l false none newFl2 = (-enolck, p.passed ++ l) := by
  have hins : p.insertNew false none l = .error (-enolck) := by
    unfold insertNew
    rw [if_neg (by rw [hadded]; exact Bool.false_ne_true), if_neg hunlck]
  rw [finish]
  split
  next => rfl
  next => rw [hins]

theorem insertNew_of_some (hadded : p.added = false) (hunlck : p.request.flType ≠ .unlck)
    (addr : Nat) (l : List (FileLock ω)) : p.insertNew false (some addr) l =
      .ok ([{ p.request with addr := addr }] ++ l) := by
  unfold insertNew
  rw [if_neg (by rw [hadded]; exact Bool.false_ne_true), if_neg hunlck]
  rfl

/-- The new lock is inserted in front of the other locks. -/
theorem carved_new {X : List (Extent LockType)} (hpassed : p.passed = P ++ p.left.toList)
    (hadded : p.added = false) (hkind : p.request.flKind = .posix)
    (hunlck : p.request.flType ≠ .unlck)
    (hheld : (p.right.toList.map (FileLock.startAt (p.request.flEnd + 1)) ++ R).map FileLock.held =
      X.map (FileLock.posixHeld p.request.flOwner))
    (hassign : p.request.assigned O = p.request.emitted ++ X)
    (hnew : NewLocks newFl newFl2 (p.passed ++ (p.right.toList ++ (R ++ B)))) :
    Carved p P O B (p.finish (p.right.toList ++ (R ++ B)) false newFl newFl2) ∨
      p.finish (p.right.toList ++ (R ++ B)) false newFl newFl2 =
        (-enolck, p.passed ++ (p.right.toList ++ (R ++ B))) := by
  cases newFl with
  | none => exact .inr (finish_of_none hadded hunlck _)
  | some addr =>
    left
    have hmid := @map_held_placed ω { p.request with addr := addr } hkind
    rw [placed, if_neg hunlck] at hmid
    have hnd : (addrs (_ ++ { p.request with addr := addr } :: _)).Nodup :=
      nodup_insert hnew.nodup (hnew.fresh addr rfl)
    apply @carved_of_finish ω p P [] R O B (some addr) newFl2 [{ p.request with addr := addr }]
    · rw [hpassed, List.append_nil]
    · exact insertNew_of_some hadded hunlck addr _
    · rw [hpassed] at hnd
      simpa using hnd
    · rw [List.nil_append, List.append_assoc, List.map_append, hmid, hheld, hassign,
        List.map_append]
      rfl

/-- The request is below all further locks. -/
theorem Open.carved_stop (h : Open p P) (hO : IsRun p.request.flOwner O)
    (hassign : p.request.assigned O = p.request.emitted ++ O.map FileLock.extent)
    (hnew : NewLocks newFl newFl2 (p.passed ++ (O ++ B))) :
    Settled p P O B (p.finish (O ++ B) false newFl newFl2) := by
  by_cases hunlck : p.request.flType = .unlck
  · -- nothing to unlock
    have hleft : p.left = none := not_not.mp fun hl => h.left hl hunlck
    have hins : p.insertNew false newFl (O ++ B) = .error 0 := by
      unfold insertNew
      rw [if_neg (by rw [h.added]; exact Bool.false_ne_true), if_pos hunlck]
      rfl
    have hnone : ¬ (p.right.isSome ∧ p.leftIsRight ∧ newFl2 = none) := by
      rw [h.right]
      exact fun hr => Bool.false_ne_true hr.1
    have hemit : p.request.emitted = [] := by
      rw [FileLock.emitted, hunlck]
      rfl
    left
    rw [finish, if_neg hnone, hins]
    refine ⟨O, ?_, ?_, hnew.nodup⟩
    · rw [h.passed, hleft]
      simp
    · rw [hassign, hemit, List.nil_append, map_held_of_isRun hO]
  · have hright : p.right.toList = [] := by
      rw [h.right]
      rfl
    have hnew' := @carved_new ω p P O O B newFl newFl2 (O.map FileLock.extent) h.passed
      h.added h.kind hunlck
    rw [hright] at hnew'
    exact hnew' (map_held_of_isRun hO) hassign hnew

/-- The request ends inside a lock that starts in it. -/
theorem Open.carved_right (h : Open p P) (hunlck : p.request.flType ≠ .unlck)
    (hO : IsRun p.request.flOwner (fl :: O))
    (hassign : p.request.assigned (fl :: O) =
      p.request.emitted ++ { fl.extent with lo := p.request.flEnd + 1 } :: O.map FileLock.extent)
    (hnew : NewLocks newFl newFl2 (p.passed ++ (fl :: O ++ B))) :
    Settled p P (fl :: O) B
      ({ p with right := some fl }.finish (fl :: O ++ B) false newFl newFl2) := by
  apply @carved_new ω { p with right := some fl } P O (fl :: O) B newFl newFl2 _ h.passed h.added
    h.kind hunlck _ hassign hnew
  show (fl.startAt (p.request.flEnd + 1) :: O).map FileLock.held = _
  rw [List.map_cons, map_held_of_isRun hO.tail, held_startAt hO]
  rfl

/-- The request lies inside a lock of another type. -/
theorem Open.carved_split (h : Open p P) (hleft : p.left = none)
    (hO : IsRun p.request.flOwner (fl :: O))
    (hassign : p.request.assigned (fl :: O) = { fl.extent with hi := p.request.flStart - 1 } ::
      (p.request.emitted ++ { fl.extent with lo := p.request.flEnd + 1 } :: O.map FileLock.extent))
    (hp' : p' = { p with
      added := decide (p.request.flType = .unlck), left := some fl, right := some fl })
    (hnew : NewLocks newFl newFl2 (p.passed ++ (fl :: O ++ B))) :
    Settled p P (fl :: O) B (p'.finish (fl :: O ++ B) false newFl newFl2) := by
  have hP : p.passed = P := by
    rw [h.passed, hleft]
    exact List.append_nil P
  cases newFl2 with
  | none =>
    right
    rw [finish, if_pos, hp']
    rw [hp']
    exact ⟨rfl, rfl, rfl⟩
  | some addr2 =>
    -- what is inserted between the two pieces
    have hmid (mid : List (FileLock ω))
        (hheld : mid.map FileLock.held =
          p.request.emitted.map (FileLock.posixHeld p.request.flOwner))
        (hins : p'.insertNew false newFl (fl :: (O ++ B)) = .ok (mid ++ fl :: (O ++ B)))
        (hnd : (addrs (p.passed ++ { fl with addr := addr2 } :: (mid ++ fl :: (O ++ B)))).Nodup) :
        Carved p P (fl :: O) B (p'.finish (fl :: (O ++ B)) false newFl (some addr2)) := by
      have hfin := finish_split mid (by rw [hp']) (by rw [hp']) hins (by rw [hp']; exact hnd)
      rw [hfin]
      refine ⟨{ fl with addr := addr2, flEnd := p'.request.flStart - 1 } ::
        (mid ++ fl.startAt (p'.request.flEnd + 1) :: O), ?_, ?_, ?_⟩
      · rw [hp', hleft, hP]
        simp
      · have hlow : ({ fl with addr := addr2, flEnd := p.request.flStart - 1 } : FileLock ω).held =
            FileLock.posixHeld p.request.flOwner
              { fl.extent with hi := p.request.flStart - 1 } := by
          obtain ⟨ho, hk, _⟩ := hO fl List.mem_cons_self
          show (fl.flOwner, fl.flKind, _) = _
          rw [ho, hk]
          rfl
        rw [hassign, hp', List.map_cons, List.map_append, List.map_cons, hlow, hheld,
          held_startAt hO, map_held_of_isRun hO.tail, List.map_cons, List.map_append,
          List.map_cons]
      · rw [hp']
        simpa [addrs, FileLock.startAt] using hnd
    have hfresh2 := hnew.fresh2 addr2 rfl
    by_cases hunlck : p.request.flType = .unlck
    · left
      apply hmid []
      · rw [FileLock.emitted, hunlck]
        rfl
      · unfold insertNew
        rw [hp', if_pos (decide_eq_true hunlck)]
        rfl
      · exact nodup_insert hnew.nodup hfresh2
    · have hadded : p'.added = false := by
        rw [hp']
        exact decide_eq_false hunlck
      have hunlck' : p'.request.flType ≠ .unlck := by
        rw [hp']
        exact hunlck
      cases newFl with
      | none =>
        right
        rw [finish_of_none hadded hunlck', hp']
      | some addr =>
        left
        have hheld := @map_held_placed ω { p.request with addr := addr } h.kind
        rw [placed, if_neg hunlck] at hheld
        apply hmid _ hheld
        · rw [insertNew_of_some hadded hunlck', hp']
        · have hnd : (addrs (_ ++ { p.request with addr := addr } :: _)).Nodup :=
            nodup_insert hnew.nodup (hnew.fresh addr rfl)
          apply nodup_insert hnd
          rw [addrs_append, List.mem_append, not_or]
          rw [addrs_append, List.mem_append, not_or] at hfresh2
          refine ⟨hfresh2.1, ?_⟩
          intro hin
          rcases List.mem_cons.mp hin with heq | hin
          · exact hnew.distinct addr rfl (congrArg some heq)
          · exact hfresh2.2 hin

/-- The locks after the first start behind it. -/
theorem end_lt_start (hcan : Extent.Canonical ((fl :: O).map FileLock.extent)) {x : FileLock ω}
    (hx : x ∈ O) : fl.flEnd < x.flStart :=
  (hcan.head_before x.extent (List.mem_map_of_mem hx)).1

variable [DecidableEq ω]

theorem ownerLocks_of_ends (h : Ends p.request.flOwner B) : p.ownerLocks B = (p, B) := by
  cases B with
  | nil => rfl
  | cons fl B =>
    have hne : ¬ p.request.posixSameOwner fl := by
      rw [FileLock.posixSameOwner, decide_eq_true_iff]
      exact fun he => h fl rfl he.symm
    rw [ownerLocks, if_pos hne]

theorem sameOwner_of_isRun (h : IsRun p.request.flOwner (fl :: O)) :
    ¬ ¬ p.request.posixSameOwner fl := by
  rw [not_not, FileLock.posixSameOwner, decide_eq_true_iff]
  exact (h fl List.mem_cons_self).1.symm

private theorem merge_start (s t : Int) : (if s < t then s else t) = min s t := by
  split <;> omega

private theorem merge_end (e t : Int) : (if t < e then e else t) = max e t := by
  split <;> omega

/-- Once the request is in the list, it grows over the locks of its type, and the other locks that
it covers are deleted. -/
theorem run_added (h : Added p P) (hO : IsRun p.request.flOwner O)
    (hB : Ends p.request.flOwner B) (hcan : Extent.Canonical (O.map FileLock.extent))
    (hstart : ∀ fl ∈ O, p.request.flStart ≤ fl.flStart)
    (hnd : (addrs (p.passed ++ (O ++ B))).Nodup) :
    Carved p P O B (p.run (O ++ B) newFl newFl2) := by
  induction O generalizing p with
  | nil =>
    rw [run, List.nil_append, ownerLocks_of_ends hB]
    apply h.carved_stop hO _ hnd
    rw [List.map_nil, List.append_nil]
    rfl
  | cons fl O ih =>
    have hle : fl.flStart ≤ fl.flEnd := hcan.head_le
    have hs := hstart fl List.mem_cons_self
    have hlabel := LockType.label_eq_some (t := p.request.flType) (hO fl List.mem_cons_self).2.2
    have hstart' (x : FileLock ω) (hx : x ∈ O) := hstart x (List.mem_cons_of_mem fl hx)
    have hnd' : (addrs (p.passed ++ (O ++ B))).Nodup := nodup_delete hnd
    rw [run, List.cons_append, ownerLocks, if_neg (sameOwner_of_isRun hO)]
    by_cases hty : p.request.flType = fl.flType
    · rw [if_pos hty, if_neg (by omega)]
      by_cases hstop : p.request.flEnd < fl.flStart - 1
      · rw [if_pos hstop]
        apply h.carved_stop hO _ hnd
        exact Extent.assign_stop (x := fl.extent) (Int.le_trans hs hle)
          (show _ < fl.flStart by omega)
          fun _ => hstop
      · -- the lock is merged into the request and deleted
        rw [if_neg hstop]
        dsimp only
        rw [if_pos h.added, merge_start, merge_end, Int.min_eq_left hs]
        have hunlck : p.request.flType ≠ .unlck := hty ▸ (hO fl List.mem_cons_self).2.2
        have hadded := h.setRequest_end hunlck (max p.request.flEnd fl.flEnd) (by
          rw [addrs_append] at hnd
          exact (List.nodup_append.mp hnd).1)
        have hcarved := ih hadded hO.tail hB hcan.of_cons hstart' (by
          rw [addrs_append] at hnd' ⊢
          rwa [setRequest, addrs_setLock fun _ => rfl])
        refine Carved.congr hcarved rfl rfl ?_
        have hmerge := @Extent.assign_merge _ fl.extent (O.map FileLock.extent) _ _
          p.request.flStart p.request.flEnd (hlabel.mpr hty) (show _ ≤ fl.flEnd by omega)
          (Int.not_lt.mp hstop)
        rw [show min p.request.flStart fl.extent.lo = _ from Int.min_eq_left hs] at hmerge
        exact hmerge.symm
    · rw [if_neg hty, if_neg (by omega)]
      have hlabel' := hty ∘ hlabel.mp
      by_cases hstop : p.request.flEnd < fl.flStart
      · rw [if_pos hstop]
        apply h.carved_stop hO _ hnd
        exact Extent.assign_stop (x := fl.extent) (Int.le_trans hs hle) hstop
          fun hv => absurd hv hlabel'
      · rw [if_neg hstop]
        have hsame : ({ p with
            added := p.added || decide (p.request.flType = LockType.unlck)
            left := if fl.flStart < p.request.flStart then some fl else p.left } : LockPass ω) =
            p := by
          have := h.added
          cases p
          dsimp only at this hs ⊢
          rw [this, if_neg (by omega), Bool.true_or]
        rw [hsame]
        dsimp only
        by_cases hend : p.request.flEnd < fl.flEnd
        · rw [if_pos hend]
          apply h.carved_right hO _ hnd
          exact Extent.assign_right (x := fl.extent) hlabel' hs (Int.not_lt.mp hstop) hend
        · rw [if_neg hend, if_pos hs, if_pos h.added]
          apply Carved.congr (ih h hO.tail hB hcan.of_cons hstart' hnd') rfl rfl
          exact (Extent.assign_cover (x := fl.extent) hlabel' hle hs (Int.not_lt.mp hend)).symm

/-! ### A lock of the owner in front -/

section Front

variable (h : Open p P) (hO : IsRun p.request.flOwner (fl :: O)) (hB : Ends p.request.flOwner B)
  (hcan : Extent.Canonical ((fl :: O).map FileLock.extent))
  (hnew : NewLocks newFl newFl2 (p.passed ++ (fl :: O ++ B)))

include h hO hB hcan hnew

/-- The lock becomes the request. -/
theorem Open.carved_place (fl' : FileLock ω) (haddr : fl'.addr = fl.addr)
    (ho : fl'.flOwner = fl.flOwner) (hk : fl'.flKind = fl.flKind)
    (hty : fl'.flType = p.request.flType) (hunlck : p.request.flType ≠ .unlck)
    (hge : ∀ x ∈ O, fl'.flStart ≤ x.flStart)
    (hl : p.left = none ∨ fl'.flStart = p.request.flStart)
    (hassign : p.request.assigned (fl :: O) =
      Extent.assign p.request.flType.label fl'.flStart fl'.flEnd (O.map FileLock.extent)) :
    Carved p P (fl :: O) B
      (({ p with request := fl', added := true }.next fl').run (O ++ B) newFl newFl2) := by
  obtain ⟨hown, hkind, -⟩ := hO fl List.mem_cons_self
  have howner : fl'.flOwner = p.request.flOwner := ho.trans hown
  have hadded : Added ({ p with request := fl', added := true }.next fl') P := by
    refine ⟨?_, rfl, h.right, hk.trans hkind⟩
    show p.passed ++ [fl'] = P ++ p.left.toList ++ placed fl'
    rw [h.passed, placed, hty, if_neg hunlck]
  have hnd : (addrs ((p.passed ++ [fl']) ++ (O ++ B))).Nodup := by
    have hnd := hnew.nodup
    rw [List.append_assoc]
    simp only [addrs_append] at hnd ⊢
    rwa [show addrs [fl'] = addrs [fl] from congrArg (fun a => [a]) haddr]
  have hrun := @run_added ω _ P O B newFl newFl2 _ hadded
    (show IsRun fl'.flOwner O from howner ▸ hO.tail) (show Ends fl'.flOwner B from howner ▸ hB)
    hcan.of_cons hge hnd
  apply hrun.congr _ howner
  · rw [hassign, ← hty]
    rfl
  · show p.left.toList.map (FileLock.endAt (fl'.flStart - 1)) = _
    rcases hl with hnone | heq
    · rw [hnone]
      rfl
    · rw [heq]

/-- A lock of the request's type that it touches takes the request in. -/
theorem Open.run_merge (hleft : p.left = none ∨ p.request.flStart ≤ fl.flStart)
    (hty : p.request.flType = fl.flType) (hlt : ¬ fl.flEnd < p.request.flStart - 1)
    (hstop : ¬ p.request.flEnd < fl.flStart - 1) :
    Carved p P (fl :: O) B (p.run (fl :: O ++ B) newFl newFl2) := by
  have hle : fl.flStart ≤ fl.flEnd := hcan.head_le
  have hheldty := (hO fl List.mem_cons_self).2.2
  rw [run, List.cons_append, ownerLocks, if_neg (sameOwner_of_isRun hO), if_pos hty, if_neg hlt,
    if_neg hstop]
  dsimp only
  rw [h.added, if_neg Bool.false_ne_true, merge_start, merge_end]
  apply h.carved_place hO hB hcan hnew { fl with
    flStart := min p.request.flStart fl.flStart, flEnd := max p.request.flEnd fl.flEnd }
    rfl rfl rfl hty.symm (hty ▸ hheldty)
  · intro x hx
    have := end_lt_start hcan hx
    show min p.request.flStart fl.flStart ≤ _
    omega
  · exact hleft.imp_right Int.min_eq_left
  · exact Extent.assign_merge (x := fl.extent) ((LockType.label_eq_some hheldty).mpr hty)
      (show _ ≤ fl.flEnd by omega) (show fl.flStart - 1 ≤ _ by omega)

/-- A lock of another type that starts in the request is cut or replaced. -/
theorem Open.run_cover (hty : p.request.flType ≠ fl.flType)
    (hge : p.request.flStart ≤ fl.flStart) (hstop : ¬ p.request.flEnd < fl.flStart) :
    Settled p P (fl :: O) B (p.run (fl :: O ++ B) newFl newFl2) := by
  have hle : fl.flStart ≤ fl.flEnd := hcan.head_le
  have hlabel := hty ∘ (LockType.label_eq_some (hO fl List.mem_cons_self).2.2).mp
  have hge' (x : FileLock ω) (hx : x ∈ O) : p.request.flStart ≤ x.flStart := by
    have := end_lt_start hcan hx
    omega
  rw [run, List.cons_append, ownerLocks, if_neg (sameOwner_of_isRun hO), if_neg hty,
    if_neg (by omega), if_neg hstop]
  dsimp only
  rw [h.added, Bool.false_or, if_neg (Int.not_lt.mpr hge)]
  by_cases hunlck : p.request.flType = .unlck
  · have hadded : Added { p with added := true } P := by
      refine ⟨?_, rfl, h.right, h.kind⟩
      show p.passed = P ++ p.left.toList ++ placed p.request
      rw [h.passed, placed, if_pos hunlck, List.append_nil]
    rw [decide_eq_true hunlck]
    left
    by_cases hend : p.request.flEnd < fl.flEnd
    · rw [if_pos hend]
      exact hadded.carved_right hO
        (Extent.assign_right (x := fl.extent) hlabel hge (Int.not_lt.mp hstop) hend) hnew.nodup
    · rw [if_neg hend, if_pos hge, if_pos rfl]
      have hrun := @run_added ω _ P O B newFl newFl2 _ hadded hO.tail hB hcan.of_cons hge'
        (nodup_delete hnew.nodup)
      apply hrun.congr rfl rfl
      exact (Extent.assign_cover (x := fl.extent) hlabel hle hge (Int.not_lt.mp hend)).symm
  · rw [decide_eq_false hunlck]
    by_cases hend : p.request.flEnd < fl.flEnd
    · have hsame : (⟨p.passed, p.request, false, p.left, some fl⟩ : LockPass ω) =
          { p with right := some fl } := by
        rw [← h.added]
      rw [if_pos hend, hsame]
      exact h.carved_right hunlck hO
        (Extent.assign_right (x := fl.extent) hlabel hge (Int.not_lt.mp hstop) hend) hnew
    · rw [if_neg hend, if_pos hge, if_neg Bool.false_ne_true]
      left
      exact h.carved_place hO hB hcan hnew { fl with
        flStart := p.request.flStart, flEnd := p.request.flEnd, flType := p.request.flType }
        rfl rfl rfl rfl hunlck hge' (.inr rfl)
        (Extent.assign_cover (x := fl.extent) hlabel hle hge (Int.not_lt.mp hend))

end Front

/-- The whole pass: the range is assigned, or a record is missing and nothing has changed. -/
theorem run_open (h : Open p P) (hO : IsRun p.request.flOwner O) (hB : Ends p.request.flOwner B)
    (hcan : Extent.Canonical (O.map FileLock.extent))
    (hleft : p.left = none ∨ ∀ fl ∈ O, p.request.flStart ≤ fl.flStart)
    (hnew : NewLocks newFl newFl2 (p.passed ++ (O ++ B))) :
    Settled p P O B (p.run (O ++ B) newFl newFl2) := by
  induction O generalizing p P with
  | nil =>
    rw [run, List.nil_append, ownerLocks_of_ends hB]
    apply h.carved_stop hO _ hnew
    rw [List.map_nil, List.append_nil]
    rfl
  | cons fl O ih =>
    have hle : fl.flStart ≤ fl.flEnd := hcan.head_le
    have hse := h.le
    have hfront := hleft.imp_right fun hge => hge fl List.mem_cons_self
    obtain ⟨hown, hkind, hheldty⟩ := hO fl List.mem_cons_self
    have hlabel := LockType.label_eq_some (t := p.request.flType) hheldty
    have hheld (x : FileLock ω) (ho : x.flOwner = fl.flOwner) (hk : x.flKind = fl.flKind) :
        x.held = FileLock.posixHeld p.request.flOwner x.extent := by
      show (x.flOwner, x.flKind, _) = _
      rw [ho, hk, hown, hkind]
      rfl
    have hnew' : NewLocks newFl newFl2 ((p.passed ++ [fl]) ++ (O ++ B)) := by
      rwa [List.append_assoc]
    -- a lock below the request
    have hskip (hlt : fl.flEnd < p.request.flStart)
        (hv : p.request.flType.label = some fl.flType → fl.flEnd < p.request.flStart - 1) :
        Settled p P (fl :: O) B ((p.next fl).run (O ++ B) newFl newFl2) := by
      have hnone := hfront.resolve_right (by omega)
      have hopen : Open (p.next fl) (P ++ [fl]) := by
        refine ⟨?_, h.added, h.right, h.kind, h.le, fun hl => absurd hnone hl⟩
        rw [next, h.passed, hnone]
        simp
      apply (ih hopen hO.tail hB hcan.of_cons (.inl hnone) hnew').cons rfl _ hnone
        (hheld fl rfl rfl) rfl (Extent.assign_skip (x := fl.extent) hlt hv)
      rw [next, hnone]
      exact List.append_nil _
    by_cases hty : p.request.flType = fl.flType
    · by_cases hlt : fl.flEnd < p.request.flStart - 1
      · rw [run, List.cons_append, ownerLocks, if_neg (sameOwner_of_isRun hO), if_pos hty,
          if_pos hlt]
        exact hskip (by omega) fun _ => hlt
      by_cases hstop : p.request.flEnd < fl.flStart - 1
      · rw [run, List.cons_append, ownerLocks, if_neg (sameOwner_of_isRun hO), if_pos hty,
          if_neg hlt, if_pos hstop]
        apply h.carved_stop hO _ hnew
        exact Extent.assign_stop (x := fl.extent) (show _ ≤ fl.flEnd by omega)
          (show _ < fl.flStart by omega) fun _ => hstop
      · exact .inl (h.run_merge hO hB hcan hnew hfront hty hlt hstop)
    · have hlabel' := hty ∘ hlabel.mp
      by_cases hcover : p.request.flStart ≤ fl.flStart ∧ ¬ p.request.flEnd < fl.flStart
      · exact h.run_cover hO hB hcan hnew hty hcover.1 hcover.2
      rw [run, List.cons_append, ownerLocks, if_neg (sameOwner_of_isRun hO), if_neg hty]
      by_cases hlt : fl.flEnd < p.request.flStart
      · rw [if_pos hlt]
        exact hskip hlt fun hv => absurd hv hlabel'
      rw [if_neg hlt]
      by_cases hstop : p.request.flEnd < fl.flStart
      · rw [if_pos hstop]
        apply h.carved_stop hO _ hnew
        exact Extent.assign_stop (x := fl.extent) (show _ ≤ fl.flEnd by omega) hstop
          fun hv => absurd hv hlabel'
      -- the request starts inside the lock
      have hcut : fl.flStart < p.request.flStart := by omega
      have hnone := hfront.resolve_right (by omega)
      rw [if_neg hstop]
      dsimp only
      rw [h.added, Bool.false_or, if_pos hcut]
      by_cases hend : p.request.flEnd < fl.flEnd
      · rw [if_pos hend]
        exact h.carved_split hnone hO
          (Extent.assign_split (x := fl.extent) hlabel' hse hcut hend) rfl hnew
      rw [if_neg hend, if_neg (by omega)]
      have hge (x : FileLock ω) (hx : x ∈ O) : p.request.flStart ≤ x.flStart := by
        have := end_lt_start hcan hx
        omega
      have hlow := hheld (fl.endAt (p.request.flStart - 1)) rfl rfl
      have hassign := Extent.assign_left (x := fl.extent) (l := O.map FileLock.extent) hlabel'
        hcut (show _ ≤ fl.flEnd by omega) (show fl.flEnd ≤ p.request.flEnd by omega)
      by_cases hunlck : p.request.flType = .unlck
      · rw [decide_eq_true hunlck]
        have hadded : Added ({ p with added := true, left := some fl }.next fl) P := by
          refine ⟨?_, rfl, h.right, h.kind⟩
          show p.passed ++ [fl] = P ++ [fl] ++ placed p.request
          rw [h.passed, hnone, placed, if_pos hunlck]
          simp
        have hrun := @run_added ω _ P O B newFl newFl2 _ hadded hO.tail hB hcan.of_cons hge
          hnew'.nodup
        exact Settled.cons (.inl hrun) rfl rfl hnone hlow rfl hassign
      · rw [decide_eq_false hunlck]
        have hopen : Open ({ p with added := false, left := some fl }.next fl) P := by
          refine ⟨?_, rfl, h.right, h.kind, h.le, fun _ => hunlck⟩
          show p.passed ++ [fl] = P ++ [fl]
          rw [h.passed, hnone]
          simp
        have hrun := ih hopen hO.tail hB hcan.of_cons (.inr hge) hnew'
        exact hrun.cons rfl rfl hnone hlow rfl hassign

end LockPass

end LinuxStm32.Fs
