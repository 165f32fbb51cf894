import LinuxStm32.Mm.Mmap

/-!
# Requests that are granted

What a request has passed when `validate_mmap_request`, `mm/nommu.c:817-987`, grants it: its bytes
and pages are numbered without overflow, a shared mapping is one of the memory of its file, and
only files are shared.
-/

namespace LinuxStm32.Mm.Mmap

open Base

/-! ### Sizes -/

theorem pageAlign_aligned (n : Nat) : pageAlign n % 4096 = 0 := Nat.mul_mod_left _ _

theorem pageAlign_lt (n : Nat) : pageAlign n < 4294967296 := by
  have hlt := wadd_lt n (4096 - 1)
  unfold pageAlign align alignDown
  omega

/-- The pages of a byte range are those of the range rounded up. -/
theorem pageAlign_eq (n : Nat) : pageAlign n = pagesOf n * 4096 := rfl

/-- The addresses of a block that lies in memory do not wrap. -/
theorem block_addresses {base n rlen : Nat} (hram : base + n < 1048576)
    (hle : rlen ≤ n * 4096) :
    wmul base pageSize = base * 4096 ∧ wadd (base * 4096) rlen = base * 4096 + rlen := by
  unfold wmul wadd pageSize
  exact ⟨Nat.mod_eq_of_lt (by omega), Nat.mod_eq_of_lt (by omega)⟩

section Granted

variable {taskSize : Nat} {req : Request} {env : Answers} {file : File} {caps : Caps}

/-! ### The stages of the check -/

theorem except_bind_ok {ε α β : Type} {x : Except ε α} {f : α → Except ε β} {b : β}
    (h : x >>= f = .ok b) : ∃ a, x = .ok a ∧ f a = .ok b := by
  cases x with
  | error e => cases h
  | ok a => exact ⟨a, rfl, h⟩

/-- A request that is granted has passed the checks of its size and of its file. -/
theorem granted_stages (h : validateMmapRequest taskSize req env = .ok caps) :
    validateSize taskSize req = .ok () ∧
      (req.file = none ∧ caps = { Caps.none with copy := true } ∨
        ∃ file, req.file = some file ∧ validateFile req file = .ok caps) := by
  unfold validateMmapRequest at h
  obtain ⟨u, hsize, h⟩ := except_bind_ok h
  refine ⟨hsize, ?_⟩
  cases hfile : req.file with
  | none =>
    rw [hfile] at h
    obtain ⟨granted, hgranted, h⟩ := except_bind_ok h
    dsimp only at h
    split_ifs at h
    exact .inl ⟨rfl, (Except.ok.inj h).symm.trans (Except.ok.inj hgranted).symm⟩
  | some file =>
    rw [hfile] at h
    obtain ⟨granted, hgranted, h⟩ := except_bind_ok h
    dsimp only at h
    split_ifs at h
    exact .inr ⟨file, rfl, (Except.ok.inj h) ▸ hgranted⟩

/-- What the check of the size lets pass. -/
theorem validateSize_ok (h : validateSize taskSize req = .ok ()) :
    req.len ≠ 0 ∧ pageAlign req.len ≠ 0 ∧ req.pgoff ≤ wadd req.pgoff (pagesOf req.len) := by
  unfold validateSize at h
  split_ifs at h with h1 h2 h3 h4 h5
  have hpages : pageAlign req.len / pageSize = pagesOf req.len := by
    rw [pageAlign_eq]
    exact Nat.mul_div_cancel _ (by decide)
  rw [hpages] at h5
  exact ⟨h3, fun hz => h4 (.inl hz), Nat.not_lt.mp h5⟩

/-- A shared mapping of a file keeps `BDI_CAP_MAP_DIRECT` and loses `BDI_CAP_MAP_COPY`. -/
theorem validateFile_shared (hshared : req.mapType = .shared)
    (h : validateFile req file = .ok caps) : caps.direct = true ∧ caps.copy = false := by
  unfold validateFile at h
  by_cases hmmap : file.hasMmap = true
  swap
  · rw [if_pos hmmap] at h
    cases h
  rw [if_neg (not_not.mpr hmmap)] at h
  obtain ⟨dev, -, h⟩ := except_bind_ok h
  dsimp only at h
  by_cases hread : file.modeRead = true
  swap
  · rw [if_pos hread] at h
    cases h
  rw [if_neg (not_not.mpr hread)] at h
  rw [if_pos hshared] at h
  obtain ⟨granted, hgranted, h⟩ := except_bind_ok h
  unfold validateShared at hgranted
  split_ifs at hgranted with h1 h2 h3 h4 h5
  obtain rfl := Except.ok.inj hgranted
  have hdirect : (dev.direct && file.hasGetUnmappedArea) = true := by simpa using h4
  unfold validateExec at h
  split_ifs at h with h6 h7 h8
  · rw [← Except.ok.inj h]
    exact ⟨hdirect, rfl⟩
  · -- execution that the file does not allow was refused before
    exact absurd (.inr (.inr ⟨h8.2.1, h8.2.2⟩)) h5
  · rw [← Except.ok.inj h]
    exact ⟨hdirect, rfl⟩

/-! ### What is granted -/

/-- A request that is granted has a size. -/
theorem validateMmapRequest_len (h : validateMmapRequest taskSize req env = .ok caps) :
    0 < pageAlign req.len :=
  Nat.pos_of_ne_zero (validateSize_ok (granted_stages h).1).2.1

/-- A request that is granted has pages, whose numbers do not overflow. -/
theorem granted_pages (hlen : req.len < 4294967296)
    (h : validateMmapRequest taskSize req env = .ok caps) :
    0 < req.len ∧ pagesOf req.len = (req.len + 4095) / 4096 ∧ req.len + 4095 < 4294967296 := by
  obtain ⟨hpos, halign, -⟩ := validateSize_ok (granted_stages h).1
  have hwrap : req.len + 4095 < 4294967296 := by
    by_contra hge
    apply halign
    unfold pageAlign align alignDown wadd
    omega
  refine ⟨by omega, ?_, hwrap⟩
  unfold pagesOf
  rw [show pageSize = 4096 from rfl, wadd_of_lt hwrap]

/-- The pages of the file that are asked for are numbered without overflow, too. -/
theorem granted_pgoff (hlen : req.len < 4294967296) (hpgoff : req.pgoff < 4294967296)
    (h : validateMmapRequest taskSize req env = .ok caps) :
    req.pgoff + pagesOf req.len < 4294967296 := by
  obtain ⟨-, hpages, hwrap⟩ := granted_pages hlen h
  obtain ⟨-, -, hle⟩ := validateSize_ok (granted_stages h).1
  unfold wadd at hle
  omega

/-- A shared mapping that is granted is direct, and its region may be shared. -/
theorem granted_shared (hfile : req.file = some file) (hshared : req.mapType = .shared)
    (h : validateMmapRequest taskSize req env = .ok caps) (traced : Bool) :
    caps.direct = true ∧
      determineVmFlags req caps traced = ⟨true, true, false, req.executable⟩ := by
  have hdirect : caps.direct = true := by
    rcases (granted_stages h).2 with ⟨hnone, -⟩ | ⟨file', hfile', hgranted⟩
    · rw [hnone] at hfile
      cases hfile
    · exact (validateFile_shared hshared hgranted).1
  refine ⟨hdirect, ?_⟩
  simp [determineVmFlags, hdirect, hshared]

/-- Only a mapping of a file may be shared. -/
theorem granted_mayShare (h : validateMmapRequest taskSize req env = .ok caps) {traced : Bool}
    (hshare : (determineVmFlags req caps traced).mayShare = true) : req.file.isSome := by
  rcases (granted_stages h).2 with ⟨hnone, rfl⟩ | ⟨file, hfile, -⟩
  · simp [determineVmFlags, hnone, Caps.none] at hshare
  · rw [hfile]
    rfl

/-- A mapping that is shared is direct, may be shared and cannot be a copy. -/
theorem granted_vmShared (h : validateMmapRequest taskSize req env = .ok caps) {traced : Bool}
    (hshared : (determineVmFlags req caps traced).shared = true) :
    caps.direct = true ∧ caps.copy = false ∧
      (determineVmFlags req caps traced).mayShare = true := by
  have hdirect : caps.direct = true := by
    by_contra hcopy
    simp only [determineVmFlags, if_pos hcopy] at hshared
    split_ifs at hshared
  have htype : req.mapType = .shared := by
    by_contra hother
    simp only [determineVmFlags, hdirect, not_true_eq_false, if_false, if_neg hother] at hshared
    split_ifs at hshared
  rcases (granted_stages h).2 with ⟨-, rfl⟩ | ⟨file, hfile, hgranted⟩
  · cases hdirect
  · obtain ⟨-, hflags⟩ := granted_shared hfile htype h traced
    exact ⟨hdirect, (validateFile_shared htype hgranted).2, by rw [hflags]⟩

end Granted

end LinuxStm32.Mm.Mmap
