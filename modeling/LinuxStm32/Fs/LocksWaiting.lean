import LinuxStm32.Base.System
import LinuxStm32.Base.WaitGraph
import LinuxStm32.Fs.Locks
import Mathlib.Data.Finset.Dedup

/-!
# Tasks that wait for POSIX locks

A call of `posix_lock_file_wait` (`fs/locks.c` 1035–1051) that is deferred is on `blocked_list`. A
waiter is known by its owner and the owner of the lock in its way, which stays as long as that lock.
`locks_wake_up_blocks` and signals take waiters off; here that may happen at any time.
-/

namespace LinuxStm32.Fs

open Base Relation

variable {ω ι : Type}

/-- `i_flock` of the inodes, and `blocked_list`. -/
structure LockTable (ω ι : Type) where
  iFlock : ι → List (FileLock ω)
  blocked : List (ω × ω)

/-- A call, or a waiter that is taken off. -/
inductive LockAct (ω ι : Type)
  | lock (inode : ι) (request : LockRequest ω) (alloc alloc2 : Option Nat)
  | unblock (waiter : ω)

/-- `locks_insert_block`, if the call is deferred. -/
def locksInsertBlock (blocked : List (ω × ω)) (waiter : ω) (blocker : Option (FileLock ω))
    (error : Int) : List (ω × ω) :=
  match blocker with
  | some fl => if error = fileLockDeferred then (waiter, fl.flOwner) :: blocked else blocked
  | none => blocked

/-- The owners that wait. -/
def waiters (blocked : List (ω × ω)) : List ω := blocked.map Prod.fst

/-- The first owner waits for a lock of the second. -/
def WaitsFor (blocked : List (ω × ω)) (w o : ω) : Prop := (w, o) ∈ blocked

variable {blocked : List (ω × ω)} {caller o next : ω}

variable [DecidableEq ω] [DecidableEq ι]

theorem WaitsFor.mem_waiters (h : WaitsFor blocked o next) : o ∈ (waiters blocked).toFinset :=
  List.mem_toFinset.mpr (List.mem_map_of_mem h)

/-- A step of some task. -/
def LockTable.perform (s : LockTable ω ι) : LockAct ω ι → LockTable ω ι
  | .lock inode request alloc alloc2 =>
    let r := posixLockFile s.blocked (s.iFlock inode) request alloc alloc2
    ⟨Function.update s.iFlock inode r.iFlock,
      locksInsertBlock s.blocked request.flOwner
        (findConflict (s.iFlock inode) request.toFileLock) r.error⟩
  | .unblock waiter => { s with blocked := s.blocked.filter fun w => w.1 ≠ waiter }

/-- Tasks that lock and wait; at first nobody waits. -/
def lockSystem (ω ι : Type) [DecidableEq ω] [DecidableEq ι] :
    System (LockTable ω ι) (LockAct ω ι) where
  init s := s.blocked = []
  step s a := some (s.perform a)

/-- Whoever waits makes no call, and no more tasks wait than `posix_locks_deadlock` visits. -/
def OneLockEach (s : LockTable ω ι) : LockAct ω ι → Prop
  | .lock _ request _ _ =>
    request.flOwner ∉ waiters s.blocked ∧ s.blocked.length ≤ maxDeadlkIterations + 1
  | .unblock _ => True

/-! ### The search -/

/-- Each owner waits for one lock, and none for itself. -/
structure WaitsOk (blocked : List (ω × ω)) : Prop where
  once : (waiters blocked).Nodup
  acyclic : Acyclic (WaitsFor blocked)

theorem WaitsOk.whatOwnerIsWaitingFor_iff (h : WaitsOk blocked) :
    whatOwnerIsWaitingFor blocked o = some next ↔ WaitsFor blocked o next := by
  rw [whatOwnerIsWaitingFor, Option.map_eq_some_iff]
  have hfst {w : ω × ω} (hw : blocked.find? (fun w => w.1 = o) = some w) : w.1 = o := by
    simpa using List.find?_some hw
  constructor
  · rintro ⟨w, hw, rfl⟩
    exact hfst hw ▸ List.mem_of_find?_eq_some hw
  · intro hnext
    have hsome : (blocked.find? fun w => w.1 = o).isSome :=
      List.find?_isSome.mpr ⟨_, hnext, decide_eq_true rfl⟩
    obtain ⟨w, hw⟩ := Option.isSome_iff_exists.mp hsome
    have heq := List.inj_on_of_nodup_map h.once (List.mem_of_find?_eq_some hw) hnext (hfst hw)
    exact ⟨w, hw, congrArg Prod.snd heq⟩

/-- A search that visits all waiters on the way is exact. -/
theorem WaitsOk.posixLocksDeadlock_iff (h : WaitsOk blocked) {o : ω} {n : Nat}
    (hn : (waitersFrom (WaitsFor blocked) (waiters blocked).toFinset o).card ≤ n) :
    posixLocksDeadlock blocked caller n o = true ↔ TransGen (WaitsFor blocked) o caller := by
  rw [TransGen.head'_iff]
  simp only [← h.whatOwnerIsWaitingFor_iff (o := o)]
  cases hw : whatOwnerIsWaitingFor blocked o with
  | none => cases n <;> simp [posixLocksDeadlock, hw]
  | some next =>
    have hnext := h.whatOwnerIsWaitingFor_iff.mp hw
    have hlt := h.acyclic.waitersFrom_lt hnext.mem_waiters hnext
    cases n with
    | zero => omega
    | succ n =>
      have ih : posixLocksDeadlock blocked caller n next = true ↔ _ :=
        h.posixLocksDeadlock_iff (by omega)
      rw [posixLocksDeadlock, hw]
      simp [reflTransGen_iff_eq_or_transGen, ih]

theorem waitersFrom_le (hlen : blocked.length ≤ maxDeadlkIterations + 1) (o : ω) :
    (waitersFrom (WaitsFor blocked) (waiters blocked).toFinset o).card ≤ maxDeadlkIterations + 1 :=
  calc (waitersFrom (WaitsFor blocked) (waiters blocked).toFinset o).card
      ≤ (waiters blocked).toFinset.card :=
        Finset.card_le_card fun w hw => (mem_waitersFrom.mp hw).1
    _ ≤ (waiters blocked).length := List.toFinset_card_le _
    _ ≤ maxDeadlkIterations + 1 := by rwa [waiters, List.length_map]

/-! ### Runs -/

variable {l : List (FileLock ω)} {request : LockRequest ω} {alloc alloc2 : Option Nat}
  {fl : FileLock ω}

theorem flOwner_ne_of_findConflict (hc : findConflict l request.toFileLock = some fl) :
    request.flOwner ≠ fl.flOwner := by
  unfold findConflict at hc
  split at hc
  · cases hc
  · intro heq
    have hfl := List.find?_some hc
    simp [FileLock.posixLocksConflict, FileLock.posixSameOwner, heq] at hfl

theorem error_of_conflict (hc : findConflict l request.toFileLock = some fl) :
    (posixLockFile blocked l request alloc alloc2).error =
      if !request.flSleep then -eagain
      else if posixLocksDeadlock blocked request.flOwner (maxDeadlkIterations + 1) fl.flOwner then
        -edeadlk
      else fileLockDeferred := by
  simp only [posixLockFile, hc]

/-- The new waiter closes no cycle. -/
theorem WaitsOk.insert (h : WaitsOk blocked) (hfree : request.flOwner ∉ waiters blocked)
    (hlen : blocked.length ≤ maxDeadlkIterations + 1) :
    WaitsOk (locksInsertBlock blocked request.flOwner (findConflict l request.toFileLock)
      (posixLockFile blocked l request alloc alloc2).error) := by
  unfold locksInsertBlock
  cases hc : findConflict l request.toFileLock with
  | none => exact h
  | some fl =>
    dsimp only
    split
    · next hdef =>
      have hpath : ¬ ReflTransGen (WaitsFor blocked) fl.flOwner request.flOwner := by
        rw [reflTransGen_iff_eq_or_transGen, ← h.posixLocksDeadlock_iff (waitersFrom_le hlen _)]
        rintro (heq | hfound)
        · exact flOwner_ne_of_findConflict hc heq
        · rw [error_of_conflict hc, if_pos hfound] at hdef
          split at hdef <;> cases hdef
      refine ⟨List.nodup_cons.mpr ⟨hfree, h.once⟩, (h.acyclic.insert hpath).mono fun x y hxy => ?_⟩
      rcases List.mem_cons.mp hxy with heq | hxy
      · exact .inr (Prod.mk.inj heq)
      · exact .inl hxy
    · exact h

variable {s : LockTable ω ι}

theorem lockSystem_waitsOk (h : (lockSystem ω ι).Reach OneLockEach s) : WaitsOk s.blocked := by
  refine @System.Reach.invariant _ _ _ _ (fun s => WaitsOk s.blocked) ?_ ?_ s h
  · rintro ⟨_, _⟩ ⟨⟩
    refine ⟨List.nodup_nil, fun x hx => ?_⟩
    obtain ⟨_, hy, -⟩ := TransGen.head'_iff.mp hx
    exact List.not_mem_nil hy
  · rintro s a s' hs ha ⟨⟩
    cases a with
    | lock inode request alloc alloc2 => exact hs.insert ha.1 ha.2
    | unblock w =>
      have hsub : (s.blocked.filter fun x => x.1 ≠ w).Sublist s.blocked := List.filter_sublist
      exact ⟨hs.once.sublist (hsub.map _), hs.acyclic.mono fun x y hxy => hsub.subset hxy⟩

/-- In every run, whoever waits for a POSIX lock waits in the end for a task that does not wait, and
`EDEADLK` is returned just when the owner of the lock in the way waits for the caller, directly or
through others. -/
theorem posix_locks_never_deadlock (h : (lockSystem ω ι).Reach OneLockEach s) :
    (∀ o, ∃ free, ReflTransGen (WaitsFor s.blocked) o free ∧ free ∉ waiters s.blocked) ∧
      ∀ inode request alloc alloc2 fl, OneLockEach s (.lock inode request alloc alloc2) →
        request.flSleep = true → findConflict (s.iFlock inode) request.toFileLock = some fl →
        ((posixLockFile s.blocked (s.iFlock inode) request alloc alloc2).error = -edeadlk ↔
          TransGen (WaitsFor s.blocked) fl.flOwner request.flOwner) := by
  have hok := lockSystem_waitsOk h
  refine ⟨fun o => ?_, fun inode request alloc alloc2 fl ha hsleep hc => ?_⟩
  · obtain ⟨free, hpath, hfree⟩ :=
      hok.acyclic.exists_not_waiting (fun _ _ => WaitsFor.mem_waiters) o
    refine ⟨free, hpath, fun hmem => ?_⟩
    obtain ⟨w, hw, rfl⟩ := List.mem_map.mp hmem
    exact hfree w.2 hw
  · rw [error_of_conflict hc, hsleep, ← hok.posixLocksDeadlock_iff (waitersFrom_le ha.2 _)]
    split <;> simp_all [edeadlk, fileLockDeferred]

/-- Owner 1 waits for owner 0, who asks for a file that owner 1 has locked. -/
theorem posix_locks_never_deadlock_pair : ∃ s : LockTable (Fin 2) Bool, s.blocked = [(1, 0)] ∧
    (posixLockFile s.blocked (s.iFlock true) ⟨⟨2, 0, .posix, .rdlck, 0, 9⟩, true, false, false⟩
      none none).error = -edeadlk := by
  let s : LockTable (Fin 2) Bool := ⟨fun i => [⟨0, if i then 1 else 0, .posix, .wrlck, 0, 9⟩], []⟩
  let a : LockAct (Fin 2) Bool :=
    .lock false ⟨⟨1, 1, .posix, .wrlck, 5, 6⟩, true, false, false⟩ none none
  have hreach : (lockSystem (Fin 2) Bool).Reach OneLockEach (s.perform a) :=
    .step (.init (show s.blocked = [] from rfl))
      (show OneLockEach s a from ⟨List.not_mem_nil, Nat.zero_le _⟩) rfl
  have hwaits : WaitsFor (s.perform a).blocked 1 0 := List.mem_cons_self
  exact ⟨_, by decide, ((posix_locks_never_deadlock hreach).2 true _ none none _
    ⟨by decide, by decide⟩ rfl rfl).mpr (.single hwaits)⟩

end LinuxStm32.Fs
