import LinuxStm32.Tools.TftpRequest

/-!
# Paths of the TFTP server

Where the path that `handle_client` opens leads to, when `.` and `..` are resolved from the root of
its drive. File names are compared without regard to case.
-/

namespace LinuxStm32.Tools

/-! ### Resolving a path -/

/-- The components of a path, without `.`. -/
def components (t : Text) : List Text :=
  (t.splitOnP isSep).filter fun c => !(c == []) && !(c == ['.'])

/-- Enter a directory or go back to its parent; the root of the drive is its own parent. The
directory entered last comes first. -/
def enter (dirs : List Text) (c : Text) : List Text :=
  if c = ['.', '.'] then dirs.tail else c :: dirs

/-- The directory below the root of the drive that the path `dirs` leads through. -/
def topDir (dirs : List Text) : Option Text := dirs.getLast?.map lower

/-- `tftp`. -/
def rootName : Text := ['t', 'f', 't', 'p']

/-- The drive of the root directory. -/
def rootDrive : Text := ['c', ':']

/-- The path is an absolute one on the drive of the root directory and leads into this. -/
def Inside (path : Text) : Prop :=
  lower (splitRoot path).1 = rootDrive ∧ (splitRoot path).2.1 ≠ [] ∧
    topDir ((components (splitRoot path).2.2).foldl enter []) = some rootName

/-- Follow components, at some depth below the root of the drive, `under` the root directory or not:
whether this ends under it. At the root of the drive the next directory decides. -/
def walk : Nat → Bool → List Text → Bool
  | depth, under, [] => decide (0 < depth) && under
  | depth, under, c :: cs =>
    if c = ['.', '.'] then walk (depth - 1) under cs
    else if depth = 0 then walk 1 (lower c == rootName) cs
    else walk (depth + 1) under cs

/-- The name has no drive or that of the root directory, and following it, from the root directory
or if it starts with a separator from the root of the drive, ends under the root directory. -/
def Stays (name : Text) : Prop :=
  ((splitRoot name).1 = [] ∨ lower (splitRoot name).1 = rootDrive) ∧
    walk (if (splitRoot name).2.1 = [] then 1 else 0) true (components (splitRoot name).2.2) = true

instance (name : Text) : Decidable (Stays name) := inferInstanceAs (Decidable (_ ∧ _))

/-! ### Counting the depth -/

theorem topDir_cons {dirs : List Text} (h : dirs ≠ []) (c : Text) :
    topDir (c :: dirs) = topDir dirs := by
  rw [topDir, List.getLast?_cons_of_ne_nil h, topDir]

/-- The depth and one flag know enough of the directories that were entered. -/
theorem walk_eq (dirs cs : List Text) {u : Bool}
    (hu : dirs ≠ [] → u = decide (topDir dirs = some rootName)) :
    walk dirs.length u cs = decide (topDir (cs.foldl enter dirs) = some rootName) := by
  induction cs generalizing dirs u with
  | nil =>
    rw [walk, List.foldl_nil]
    cases dirs with
    | nil => rfl
    | cons d ds =>
      rw [List.length_cons, decide_eq_true (Nat.zero_lt_succ _), Bool.true_and]
      exact hu (List.cons_ne_nil d ds)
  | cons c cs ih =>
    rw [walk, List.foldl_cons, enter]
    by_cases hup : c = ['.', '.']
    · rw [if_pos hup, if_pos hup, ← List.length_tail]
      apply ih
      intro hne
      cases dirs with
      | nil => exact absurd rfl hne
      | cons d ds =>
        rw [List.tail_cons] at hne
        rw [hu (List.cons_ne_nil d ds), List.tail_cons, topDir_cons hne]
    · rw [if_neg hup, if_neg hup]
      cases dirs with
      | nil =>
        rw [if_pos List.length_nil]
        apply ih [c]
        intro _
        rw [Bool.eq_iff_iff, beq_iff_eq, decide_eq_true_eq]
        exact Option.some_inj.symm
      | cons d ds =>
        rw [List.length_cons, if_neg (Nat.succ_ne_zero _)]
        apply ih (c :: d :: ds)
        intro _
        rw [topDir_cons (List.cons_ne_nil d ds)]
        exact hu (List.cons_ne_nil d ds)

/-! ### What `splitroot` returns -/

theorem splitAtSep_some {s a b : Text} {c : Char} (h : splitAtSep s = some (a, c, b)) :
    s = a ++ c :: b := by
  induction s generalizing a with
  | nil => cases h
  | cons x xs ih =>
    rw [splitAtSep] at h
    split at h
    next =>
      cases h
      rfl
    next =>
      rw [Option.map_eq_some_iff] at h
      obtain ⟨⟨a', c', b'⟩, hx, he⟩ := h
      cases he
      rw [ih hx]
      rfl

/-- The parts of a UNC path make the path, the drive starts as the path does, and there is no tail
without a root. -/
theorem splitUnc_spec {c : Char} {cs drive root tail : Text}
    (h : splitUnc (c :: cs) = (drive, root, tail)) :
    drive ++ root ++ tail = c :: cs ∧ (∃ rest, drive = c :: rest) ∧ (root = [] → tail = []) := by
  unfold splitUnc at h
  dsimp only at h
  generalize hstart :
    (if upper ((List.map (fun c => if c = '/' then '\\' else c) (c :: cs)).take 8) =
    uncPrefix then 8 else 2) = start at h
  have hpos : 0 < start := by
    rw [← hstart]
    split
    next => decide
    next => decide
  cases h1 : splitAtSep ((c :: cs).drop start) with
  | none =>
    rw [h1] at h
    cases h
    exact ⟨by simp, ⟨cs, rfl⟩, fun _ => rfl⟩
  | some r =>
    obtain ⟨server, sep, more⟩ := r
    rw [h1] at h
    dsimp only at h
    cases h2 : splitAtSep more with
    | none =>
      rw [h2] at h
      cases h
      exact ⟨by simp, ⟨cs, rfl⟩, fun _ => rfl⟩
    | some r =>
      obtain ⟨share, root', tail'⟩ := r
      rw [h2] at h
      cases h
      have hdrop := splitAtSep_some h1
      have hmore := splitAtSep_some h2
      refine ⟨?_, ?_, nofun⟩
      · conv => rhs; rw [← List.take_append_drop start (c :: cs), hdrop, hmore]
        simp
      · obtain ⟨n, rfl⟩ := Nat.exists_eq_succ_of_ne_zero (Nat.ne_of_gt hpos)
        rw [List.take_succ_cons]
        exact ⟨_, rfl⟩

theorem splitRoot_drive_root {c r : Char} (hc : isSep c = false) (hr : isSep r = true)
    (tail : Text) :
    splitRoot (c :: ':' :: r :: tail) = ([c, ':'], [r], tail) := by
  simp [splitRoot, hc, hr]

theorem splitRoot_drive {c r : Char} (hc : isSep c = false) (hr : isSep r = false) (tail : Text) :
    splitRoot (c :: ':' :: r :: tail) = ([c, ':'], [], r :: tail) := by
  simp [splitRoot, hc, hr]

theorem splitRoot_root {c d : Char} (hc : isSep c = true) (hd : isSep d = false) (tail : Text) :
    splitRoot (c :: d :: tail) = ([], [c], d :: tail) := by
  simp [splitRoot, hc, hd]

theorem splitRoot_unc {c d : Char} (hc : isSep c = true) (hd : isSep d = true) (tail : Text) :
    splitRoot (c :: d :: tail) = splitUnc (c :: d :: tail) := by
  simp [splitRoot, hc, hd]

theorem splitRoot_relative {c d : Char} (hc : isSep c = false) (hd : d ≠ ':') (tail : Text) :
    splitRoot (c :: d :: tail) = ([], [], c :: d :: tail) := by
  simp [splitRoot, hc, hd]

/-! ### The path that is opened -/

theorem components_under (tail : Text) :
    components (rootName ++ '\\' :: tail) = rootName :: components tail := by
  have hroot : ∀ c ∈ rootName, isSep c = false := by simp [rootName, isSep]
  rw [components, List.splitOnP_append_cons_of_forall_mem hroot '\\' (by decide)]
  rfl

/-- Paths on the drive of the root directory. -/
theorem inside_drive {c r : Char} (hc : isSep c = false) (hr : isSep r = true) (tail : Text) :
    Inside (c :: ':' :: r :: tail) ↔
      lower [c, ':'] = rootDrive ∧ walk 0 true (components tail) = true := by
  have hwalk := walk_eq [] (components tail) (u := true) nofun
  rw [List.length_nil] at hwalk
  unfold Inside
  rw [splitRoot_drive_root hc hr, hwalk, decide_eq_true_eq]
  exact ⟨fun h => ⟨h.1, h.2.2⟩, fun h => ⟨h.1, List.cons_ne_nil r [], h.2⟩⟩

/-- Paths below the root directory. -/
theorem inside_under {c : Char} (hc : isSep c = false) (tail : Text) :
    Inside (c :: ':' :: '\\' :: (rootName ++ '\\' :: tail)) ↔
      lower [c, ':'] = rootDrive ∧ walk 1 true (components tail) = true := by
  rw [inside_drive hc (by decide), components_under]
  exact Iff.rfl

/-- A drive that begins with a separator is not that of the root directory. -/
theorem lower_ne_rootDrive {c : Char} (hc : isSep c = true) (rest : Text) :
    lower (c :: rest) ≠ rootDrive := by
  intro h
  have hhead : c.toLower = 'c' := (List.cons.inj h).1
  rw [isSep, Bool.or_eq_true, beq_iff_eq, beq_iff_eq] at hc
  rcases hc with rfl | rfl
  · exact absurd hhead (by decide)
  · exact absurd hhead (by decide)

theorem splitRoot_tftpRoot : splitRoot tftpRoot = (['C', ':'], ['\\'], rootName) := by decide

/-- Names on another drive are opened as they are. -/
theorem ntJoin_other {name drive root tail : Text} (hsplit : splitRoot name = (drive, root, tail))
    (happend : drive ++ root ++ tail = name) (hdrive : drive ≠ [])
    (hother : lower drive ≠ rootDrive)
    (hcolon : root = [] → tail = [] ∨ drive.getLast? = some ':') :
    ntJoin tftpRoot name = name := by
  have hne : drive ≠ ['C', ':'] := by
    rintro rfl
    exact hother (by decide)
  have hparts : joinParts tftpRoot name = (drive, root, tail) := by
    rw [joinParts, splitRoot_tftpRoot, hsplit]
    dsimp only
    by_cases hr : root = []
    · rw [if_neg (not_not_intro hr), if_pos ⟨hdrive, hne⟩]
      exact if_pos hother
    · rw [if_pos hr, if_pos (.inl hdrive)]
  rw [ntJoin, hparts]
  dsimp only
  rw [if_neg, happend]
  rintro ⟨htail, hr, -, hlast⟩
  rcases hcolon hr with h | h
  · exact htail h
  · rw [h] at hlast
    exact hlast (by decide)

/-- Names on another drive lead elsewhere. -/
theorem not_inside_other {name drive root tail : Text}
    (hsplit : splitRoot name = (drive, root, tail))
    (happend : drive ++ root ++ tail = name) (hdrive : drive ≠ [])
    (hother : lower drive ≠ rootDrive)
    (hcolon : root = [] → tail = [] ∨ drive.getLast? = some ':') :
    Inside (ntJoin tftpRoot name) ↔ Stays name := by
  rw [ntJoin_other hsplit happend hdrive hother hcolon, Inside, Stays, hsplit]
  exact ⟨fun h => absurd h.1 hother, fun h => absurd h.1 (not_or.mpr ⟨hdrive, hother⟩)⟩

/-- A name without separator at its beginning, on the drive of the root directory or on none. -/
theorem ntJoin_relative {name drive tail : Text} (hsplit : splitRoot name = (drive, [], tail))
    (hdrive : drive = [] ∨ lower drive = rootDrive) :
    ntJoin tftpRoot name = (if drive = [] then ['C', ':'] else drive) ++
      '\\' :: (rootName ++ '\\' :: tail) := by
  have hpath : appendPath rootName tail = rootName ++ '\\' :: tail := by
    rw [appendPath, if_pos (by decide)]
  have hparts : joinParts tftpRoot name =
      (if drive = [] then ['C', ':'] else drive, ['\\'], rootName ++ '\\' :: tail) := by
    rw [joinParts, splitRoot_tftpRoot, hsplit]
    dsimp only
    rw [if_neg (not_not_intro rfl), hpath]
    rcases hdrive with rfl | hlower
    · rw [if_neg (fun h => h.1 rfl), if_pos rfl]
    · have hne : drive ≠ [] := by
        rintro rfl
        cases hlower
      rw [if_neg hne]
      by_cases hsame : drive = ['C', ':']
      · rw [if_neg (fun h => h.2 hsame), hsame]
      · rw [if_pos ⟨hne, hsame⟩]
        exact if_neg (not_not_intro hlower)
  rw [ntJoin, hparts]
  dsimp only
  rw [if_neg (fun h => absurd h.2.1 (List.cons_ne_nil _ _)), List.append_assoc]
  rfl

/-- A name that starts at the root of a drive. -/
theorem ntJoin_root {name drive tail : Text} {r : Char}
    (hsplit : splitRoot name = (drive, [r], tail)) :
    ntJoin tftpRoot name = (if drive = [] then ['C', ':'] else drive) ++ r :: tail := by
  have hparts : joinParts tftpRoot name =
      (if drive = [] then ['C', ':'] else drive, [r], tail) := by
    rw [joinParts, splitRoot_tftpRoot, hsplit]
    dsimp only
    rw [if_pos (List.cons_ne_nil r [])]
    by_cases hd : drive = []
    · rw [if_pos hd, if_neg]
      rintro (h | h)
      · exact h hd
      · cases h
    · rw [if_neg hd, if_pos (.inl hd)]
  rw [ntJoin, hparts]
  dsimp only
  rw [if_neg (fun h => absurd h.2.1 (List.cons_ne_nil _ _)), List.append_assoc]
  rfl

/-- The file name decides whether the path that is opened leads into the root directory. -/
theorem inside_iff_stays (name : Text) : Inside (ntJoin tftpRoot name) ↔ Stays name := by
  -- relative names, on no drive and on that of the root directory
  have hrel : ∀ tail, splitRoot name = ([], [], tail) →
      (Inside (ntJoin tftpRoot name) ↔ Stays name) := by
    intro tail hsplit
    rw [ntJoin_relative hsplit (.inl rfl), if_pos rfl, Stays, hsplit]
    refine (inside_under (by decide) tail).trans ?_
    exact ⟨fun h => ⟨.inl rfl, h.2⟩, fun h => ⟨by decide, h.2⟩⟩
  have hdrive : ∀ c tail, isSep c = false → splitRoot name = ([c, ':'], [], tail) →
      c :: ':' :: tail = name → (Inside (ntJoin tftpRoot name) ↔ Stays name) := by
    intro c tail hc hsplit happend
    by_cases hlower : lower [c, ':'] = rootDrive
    · rw [ntJoin_relative hsplit (.inr hlower), if_neg (List.cons_ne_nil _ _), Stays, hsplit]
      refine (inside_under hc tail).trans ?_
      exact ⟨fun h => ⟨.inr hlower, h.2⟩, fun h => ⟨hlower, h.2⟩⟩
    · apply not_inside_other hsplit _ (List.cons_ne_nil _ _) hlower (fun _ => .inr rfl)
      rw [← happend]
      rfl
  -- names that start with a separator
  have hroot : ∀ r tail, isSep r = true → splitRoot name = ([], [r], tail) →
      (Inside (ntJoin tftpRoot name) ↔ Stays name) := by
    intro r tail hr hsplit
    rw [ntJoin_root hsplit, if_pos rfl, Stays, hsplit]
    refine (inside_drive (by decide) hr tail).trans ?_
    exact ⟨fun h => ⟨.inl rfl, h.2⟩, fun h => ⟨by decide, h.2⟩⟩
  match name with
  | [] => exact hrel [] rfl
  | [c] =>
    cases hc : isSep c with
    | false => exact hrel [c] (by simp [splitRoot, hc])
    | true => exact hroot c [] hc (by simp [splitRoot, hc])
  | c :: d :: rest =>
    cases hc : isSep c with
    | true =>
      cases hd : isSep d with
      | true =>
        rcases hunc : splitUnc (c :: d :: rest) with ⟨drive, root, tail⟩
        obtain ⟨happend, ⟨more, hdr⟩, hnil⟩ := splitUnc_spec hunc
        apply not_inside_other ((splitRoot_unc hc hd rest).trans hunc) happend
        · rw [hdr]
          exact List.cons_ne_nil c more
        · rw [hdr]
          exact lower_ne_rootDrive hc more
        · exact fun h => .inl (hnil h)
      | false => exact hroot c (d :: rest) hc (splitRoot_root hc hd rest)
    | false =>
      by_cases hcolon : d = ':'
      · subst hcolon
        cases rest with
        | nil => exact hdrive c [] hc (by simp [splitRoot, hc]) rfl
        | cons r tail =>
          cases hr : isSep r with
          | false => exact hdrive c (r :: tail) hc (splitRoot_drive hc hr tail) rfl
          | true =>
            rw [ntJoin_root (splitRoot_drive_root hc hr tail), if_neg (List.cons_ne_nil _ _), Stays,
              splitRoot_drive_root hc hr tail]
            refine (inside_drive hc hr tail).trans ?_
            exact ⟨fun h => ⟨.inr h.1, h.2⟩,
              fun h => ⟨h.1.resolve_left (List.cons_ne_nil _ _), h.2⟩⟩
      · exact hrel _ (splitRoot_relative hc hcolon rest)

/-- Whatever bytes the file name has, the path that is opened lies in the root directory exactly if
the name stays there. -/
theorem tftp_path_confined (name : Bytes) : Inside (openedPath name) ↔ Stays (fileName name) :=
  inside_iff_stays (fileName name)

/-- The name `..\x` leads to the root of the drive. -/
theorem tftp_path_escapes :
    openedPath [46, 46, 92, 120] =
        ['C', ':', '\\', 't', 'f', 't', 'p', '\\', '.', '.', '\\', 'x'] ∧
      ¬ Inside (openedPath [46, 46, 92, 120]) := by
  refine ⟨by decide, fun h => ?_⟩
  have hstays := (inside_iff_stays (fileName [46, 46, 92, 120])).mp h
  exact absurd hstays (by decide)

end LinuxStm32.Tools
