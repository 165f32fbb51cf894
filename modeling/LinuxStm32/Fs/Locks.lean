import LinuxStm32.Base.Extent
import Mathlib.Algebra.Order.Ring.Int

/-!
# POSIX record locks

Model of `__posix_lock_file` (`fs/locks.c` 803–1003) with `posix_locks_conflict` (599–624),
`posix_locks_deadlock` (690–716), `locks_insert_lock` and `locks_delete_lock` (556–594). The list
`i_flock` of an inode holds leases, `flock` locks and POSIX locks. A record is known by its address,
since `request`, `left` and `right` come to point to records of the list: a write through one of
them is a write to every record of that address. An owner stands for what `posix_same_owner`
compares. Offsets are `loff_t` values that the code keeps between -1 and `OFFSET_MAX`, so they are
integers here.

Left out are the waiting lists with their wake-ups, `fl_file`, `fl_pid` and the private operations
of a lock, which no decision of the function reads.
-/

namespace LinuxStm32.Fs

open Base

/-- `fl_type`. -/
inductive LockType where
  | rdlck
  | wrlck
  | unlck
  deriving DecidableEq, Repr

/-- The kind of a lock in `fl_flags`: `FL_POSIX`, `FL_FLOCK` or `FL_LEASE`. -/
inductive LockKind where
  | posix
  | flock
  | lease
  deriving DecidableEq, Repr

/-- `OFFSET_MAX`. -/
def offsetMax : Int := 2 ^ 63 - 1

/-- `EAGAIN`. -/
def eagain : Int := 11

/-- `EDEADLK`. -/
def edeadlk : Int := 35

/-- `ENOLCK`. -/
def enolck : Int := 37

/-- `ENOENT`. -/
def enoent : Int := 2

/-- `FILE_LOCK_DEFERRED`. -/
def fileLockDeferred : Int := 1

/-- `MAX_DEADLK_ITERATIONS`. -/
def maxDeadlkIterations : Nat := 10

/-- `struct file_lock`, at its address. -/
structure FileLock (ω : Type) where
  addr : Nat
  flOwner : ω
  flKind : LockKind
  flType : LockType
  flStart : Int
  flEnd : Int
  deriving DecidableEq, Repr

/-- The lock that a caller asks for, with `FL_SLEEP`, `FL_ACCESS` and `FL_EXISTS`. -/
structure LockRequest (ω : Type) extends FileLock ω where
  flSleep : Bool
  flAccess : Bool
  flExists : Bool
  deriving DecidableEq, Repr

/-- What a call returns and leaves: the error, `i_flock`, and what is copied to `conflock`. -/
structure LockResult (ω : Type) where
  error : Int
  iFlock : List (FileLock ω)
  conflock : Option (FileLock ω)
  deriving DecidableEq, Repr

variable {ω : Type} [DecidableEq ω]

namespace FileLock

/-- `IS_POSIX`. -/
def isPosix (fl : FileLock ω) : Bool := fl.flKind = .posix

/-- `posix_same_owner`. -/
def posixSameOwner (fl1 fl2 : FileLock ω) : Bool := fl1.flOwner = fl2.flOwner

/-- `locks_overlap`. -/
def locksOverlap (fl1 fl2 : FileLock ω) : Bool :=
  decide (fl2.flStart ≤ fl1.flEnd) && decide (fl1.flStart ≤ fl2.flEnd)

/-- `locks_conflict`. -/
def locksConflict (caller sys : FileLock ω) : Bool :=
  sys.flType = .wrlck || caller.flType = .wrlck

/-- `posix_locks_conflict`. -/
def posixLocksConflict (caller sys : FileLock ω) : Bool :=
  sys.isPosix && !caller.posixSameOwner sys && caller.locksOverlap sys && caller.locksConflict sys

end FileLock

/-! ### Deadlocks

`blocked_list` is read for the owner of a waiting lock and the owner of the lock it waits for. -/

/-- `what_owner_is_waiting_for`. -/
def whatOwnerIsWaitingFor (blocked : List (ω × ω)) (blockFl : ω) : Option ω :=
  (blocked.find? fun w => w.1 = blockFl).map Prod.snd

/-- `posix_locks_deadlock`, from the iteration on that leaves `n` comparisons. -/
def posixLocksDeadlock (blocked : List (ω × ω)) (caller : ω) : Nat → ω → Bool
  | 0, _ => false
  | n + 1, blockFl =>
    match whatOwnerIsWaitingFor blocked blockFl with
    | none => false
    | some next => if caller = next then true else posixLocksDeadlock blocked caller n next

/-! ### One pass over the locks of the owner -/

/-- Write to the record of an address. -/
def setLock (addr : Nat) (f : FileLock ω → FileLock ω) (l : List (FileLock ω)) :
    List (FileLock ω) :=
  l.map fun fl => if fl.addr = addr then f fl else fl

/-- Write through a pointer that may be `NULL`. -/
def setThrough (ptr : Option (FileLock ω)) (f : FileLock ω → FileLock ω) (l : List (FileLock ω)) :
    List (FileLock ω) :=
  match ptr with
  | none => l
  | some fl => setLock fl.addr f l

/-- The local variables of the pass: the locks before `*before`, and the record that `request`
points to. The records of `left` and `right` are not written until the pass is over. -/
structure LockPass (ω : Type) where
  passed : List (FileLock ω)
  request : FileLock ω
  added : Bool
  left : Option (FileLock ω)
  right : Option (FileLock ω)
  deriving DecidableEq, Repr

namespace LockPass

/-- `before = &fl->fl_next`. -/
def next (p : LockPass ω) (fl : FileLock ω) : LockPass ω := { p with passed := p.passed ++ [fl] }

/-- Write to `*request`, which may be a record of the list. -/
def setRequest (p : LockPass ω) (fl : FileLock ω) : LockPass ω :=
  { p with passed := setLock fl.addr (fun _ => fl) p.passed, request := fl }

/-- "Process locks with this owner": the loop, with the list from `*before` on. -/
def ownerLocks (p : LockPass ω) : List (FileLock ω) → LockPass ω × List (FileLock ω)
  | [] => (p, [])
  | fl :: rest =>
    if ¬ p.request.posixSameOwner fl then (p, fl :: rest)
    else if p.request.flType = fl.flType then
      if fl.flEnd < p.request.flStart - 1 then (p.next fl).ownerLocks rest
      else if p.request.flEnd < fl.flStart - 1 then (p, fl :: rest)
      else
        -- one lock from the lower start to the higher end, in both records
        let start := if p.request.flStart < fl.flStart then p.request.flStart else fl.flStart
        let stop := if fl.flEnd < p.request.flEnd then p.request.flEnd else fl.flEnd
        if p.added then
          (p.setRequest { p.request with flStart := start, flEnd := stop }).ownerLocks rest
        else
          let fl := { fl with flStart := start, flEnd := stop }
          ({ p with request := fl, added := true }.next fl).ownerLocks rest
    else if fl.flEnd < p.request.flStart then (p.next fl).ownerLocks rest
    else if p.request.flEnd < fl.flStart then (p, fl :: rest)
    else
      let p := { p with
        added := p.added || decide (p.request.flType = LockType.unlck)
        left := if fl.flStart < p.request.flStart then some fl else p.left }
      if p.request.flEnd < fl.flEnd then ({ p with right := some fl }, fl :: rest)
      else if p.request.flStart ≤ fl.flStart then
        if p.added then p.ownerLocks rest
        else
          let fl := { fl with
            flStart := p.request.flStart, flEnd := p.request.flEnd, flType := p.request.flType }
          ({ p with request := fl, added := true }.next fl).ownerLocks rest
      else (p.next fl).ownerLocks rest

/-- `left == right`, as pointers. -/
def leftIsRight (p : LockPass ω) : Prop :=
  p.left.map FileLock.addr = p.right.map FileLock.addr

instance (p : LockPass ω) : Decidable p.leftIsRight := inferInstanceAs (Decidable (_ = _))

/-- Insert the new lock before `*before`, unless it was added already. -/
def insertNew (p : LockPass ω) (flExists : Bool) (newFl : Option Nat) (rest : List (FileLock ω)) :
    Except Int (List (FileLock ω)) :=
  if p.added then .ok rest
  else if p.request.flType = .unlck then .error (if flExists then -enoent else 0)
  else
    match newFl with
    | none => .error (-enolck)
    | some addr => .ok ({ p.request with addr := addr } :: rest)

/-- `new_fl2` as the lower piece of a lock that is broken in two. -/
def leftPiece (p : LockPass ω) (newFl2 : Option Nat) : Option (FileLock ω) :=
  match p.right, newFl2 with
  | some right, some addr => if p.leftIsRight then some { right with addr := addr } else none
  | _, _ => none

/-- Cut the old locks at the two ends of the request. -/
def cutEnds (p : LockPass ω) (newFl2 : Option Nat) (rest : List (FileLock ω)) :
    List (FileLock ω) :=
  let l := p.passed ++ (p.leftPiece newFl2).toList ++ rest
  let l := setThrough p.right (fun fl => { fl with flStart := p.request.flEnd + 1 }) l
  setThrough ((p.leftPiece newFl2).or p.left)
    (fun fl => { fl with flEnd := p.request.flStart - 1 }) l

/-- What follows the pass: the new locks are inserted and the old ones cut, or nothing is done. -/
def finish (p : LockPass ω) (rest : List (FileLock ω)) (flExists : Bool)
    (newFl newFl2 : Option Nat) : Int × List (FileLock ω) :=
  if p.right.isSome ∧ p.leftIsRight ∧ newFl2 = none then (-enolck, p.passed ++ rest)
  else
    match p.insertNew flExists newFl rest with
    | .error err => (err, p.passed ++ rest)
    | .ok rest => (0, p.cutEnds newFl2 rest)

end LockPass

/-! ### The call -/

/-- The first lock of the list that conflicts with the request. -/
def findConflict (l : List (FileLock ω)) (request : FileLock ω) : Option (FileLock ω) :=
  if request.flType = .unlck then none
  else l.find? fun fl => fl.isPosix && request.posixLocksConflict fl

/-- The part of `__posix_lock_file` that changes the list. -/
def changeLocks (l : List (FileLock ω)) (request : LockRequest ω) (newFl newFl2 : Option Nat) :
    Int × List (FileLock ω) :=
  -- "First skip locks owned by other processes."
  let skip := fun fl : FileLock ω => !fl.isPosix || !request.posixSameOwner fl
  let p : LockPass ω := ⟨l.takeWhile skip, request.toFileLock, false, none, none⟩
  let (p, rest) := p.ownerLocks (l.dropWhile skip)
  p.finish rest request.flExists newFl newFl2

/-- `__posix_lock_file`; `alloc` and `alloc2` are what the two `locks_alloc_lock` give if they are
called, and `blocked` is `blocked_list`. -/
def posixLockFile (blocked : List (ω × ω)) (l : List (FileLock ω)) (request : LockRequest ω)
    (alloc alloc2 : Option Nat) : LockResult ω :=
  let needNew := !request.flAccess &&
    (request.flType ≠ .unlck || request.flStart ≠ 0 || request.flEnd ≠ offsetMax)
  let newFl := if needNew then alloc else none
  let newFl2 := if needNew then alloc2 else none
  match findConflict l request.toFileLock with
  | some fl =>
    let error :=
      if !request.flSleep then -eagain
      else if posixLocksDeadlock blocked request.flOwner (maxDeadlkIterations + 1) fl.flOwner then
        -edeadlk
      else fileLockDeferred
    ⟨error, l, some fl⟩
  | none =>
    if request.flAccess then ⟨0, l, none⟩
    else
      let (error, l) := changeLocks l request newFl newFl2
      ⟨error, l, none⟩

end LinuxStm32.Fs
