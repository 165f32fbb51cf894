import LinuxStm32.Fs.FatEntLaws
import Mathlib.Data.List.Perm.Basic
import Mathlib.Data.List.Range

/-!
# Allocating and freeing chains of clusters

`fat_alloc_clusters` and `fat_free_clusters` over tables seen as numbers. The scan visits every
entry once, beginning after the last cluster that was allocated, and links the free ones it meets.
The only cluster number that an entry cannot point to is `BAD_FAT32`, which the last cluster of the
largest FAT32 table has: a chain that contains it after its first cluster reads as if it ended
before it.
-/

namespace LinuxStm32.Fs.Fat

/-! ### Chains as numbers of a table -/

/-- The table `w` after the clusters were linked in this order. -/
def chainWord (t : FatBits) (w : Nat → Nat) : List Nat → Nat → Nat
  | [], e => w e
  | c :: cs, e => if e = c then t.enc (cs.headD fatEntEof) (w e) else chainWord t w cs e

/-- Following the values from the first cluster gives the clusters and then the end. -/
def IsFatChain (val : Nat → Nat) : List Nat → Prop
  | [] => True
  | c :: cs => val c = cs.headD fatEntEof ∧ IsFatChain val cs

/-- What is left of a chain whose clusters are freed until a value ends it. -/
def cutAtBad (bad : Nat) : List Nat → List Nat
  | [] => []
  | _ :: cs => if cs.headD 0 < bad then cutAtBad bad cs else cs

section

variable {t : FatBits} {w : Nat → Nat} {cl : List Nat}

theorem chainWord_of_notMem {e : Nat} (h : e ∉ cl) : chainWord t w cl e = w e := by
  induction cl with
  | nil => rfl
  | cons c cs ih =>
    rw [List.mem_cons, not_or] at h
    rw [chainWord, if_neg h.1, ih h.2]

theorem chainWord_head (c : Nat) (cs : List Nat) :
    chainWord t w (c :: cs) c = t.enc (cs.headD fatEntEof) (w c) := if_pos rfl

/-- A cluster is put after the last one. -/
theorem chainWord_concat {l : List Nat} {c x : Nat} (hnd : (l ++ [c] ++ [x]).Nodup) (e : Nat) :
    chainWord t w (l ++ [c] ++ [x]) e = if e = x then t.enc fatEntEof (w e)
      else if e = c then t.enc x (w e) else chainWord t w (l ++ [c]) e := by
  induction l with
  | nil =>
    have hne : c ≠ x := by
      rw [List.nil_append, List.nodup_append] at hnd
      exact hnd.2.2 c List.mem_cons_self x List.mem_cons_self
    show (if e = c then t.enc x (w e) else if e = x then t.enc fatEntEof (w e) else w e) =
      if e = x then t.enc fatEntEof (w e) else if e = c then t.enc x (w e)
        else if e = c then t.enc fatEntEof (w e) else w e
    by_cases hc : e = c
    · rw [if_pos hc, if_neg (by rw [hc]; exact hne), if_pos hc]
    · rw [if_neg hc, if_neg hc, if_neg hc]
  | cons a l ih =>
    rw [List.cons_append, List.cons_append, List.nodup_cons] at hnd
    have ha := hnd.1
    rw [List.mem_append, List.mem_append, List.mem_singleton, List.mem_singleton, not_or,
      not_or] at ha
    have hhead : (l ++ [c] ++ [x]).headD fatEntEof = (l ++ [c]).headD fatEntEof := by
      cases l with
      | nil => rfl
      | cons b l => rfl
    rw [List.cons_append, List.cons_append, chainWord, chainWord, hhead, ih hnd.2]
    by_cases hea : e = a
    · rw [if_pos hea, if_pos hea, if_neg (by rw [hea]; exact ha.2),
        if_neg (by rw [hea]; exact ha.1.2)]
    · rw [if_neg hea, if_neg hea]

theorem chainWord_last {l : List Nat} {c : Nat} (h : c ∉ l) :
    chainWord t w (l ++ [c]) c = t.enc fatEntEof (w c) := by
  induction l with
  | nil => exact if_pos rfl
  | cons a l ih =>
    rw [List.mem_cons, not_or] at h
    rw [List.cons_append, chainWord, if_neg h.1, ih h.2]

theorem IsFatChain.congr {val val' : Nat → Nat} (h : ∀ c ∈ cl, val c = val' c) :
    IsFatChain val cl ↔ IsFatChain val' cl := by
  induction cl with
  | nil => exact Iff.rfl
  | cons c cs ih =>
    rw [IsFatChain, IsFatChain, h c List.mem_cons_self,
      ih fun x hx => h x (List.mem_cons_of_mem c hx)]

/-- A linked chain is read back exactly if every cluster after the first can be pointed to. -/
theorem isFatChain_iff (hnd : cl.Nodup) (hmax : ∀ c ∈ cl, c < t.maxFat + 2) :
    IsFatChain (fun e => t.dec (chainWord t w cl e)) cl ↔ ∀ c ∈ cl.tail, c < t.bad := by
  induction cl with
  | nil => exact ⟨fun _ c hc => absurd hc List.not_mem_nil, fun _ => trivial⟩
  | cons c cs ih =>
    rw [List.nodup_cons] at hnd
    have hrest : IsFatChain (fun e => t.dec (chainWord t w (c :: cs) e)) cs ↔
        ∀ x ∈ cs.tail, x < t.bad := by
      rw [← ih hnd.2 fun x hx => hmax x (List.mem_cons_of_mem c hx)]
      apply IsFatChain.congr
      intro x hx
      have hne : x ≠ c := fun he => hnd.1 (he ▸ hx)
      rw [chainWord, if_neg hne]
    rw [IsFatChain, hrest, chainWord_head, List.tail_cons]
    cases cs with
    | nil =>
      rw [List.headD_nil, t.dec_enc_eof, eq_self_iff_true, true_and, List.tail_nil]
    | cons x xs =>
      have hx : x < t.maxFat + 2 := hmax x (List.mem_cons_of_mem c List.mem_cons_self)
      have hne : fatEntEof ≠ x := by
        rintro rfl
        revert hx
        cases t <;> decide
      rw [List.headD_cons, FatBits.dec_enc hx, List.tail_cons, List.forall_mem_cons]
      by_cases hb : x < t.bad
      · rw [if_pos hb, eq_self_iff_true, true_and, and_iff_right hb]
      · rw [if_neg hb]
        exact ⟨fun h => absurd h.1 hne, fun h => absurd h.1 hb⟩

theorem cutAtBad_eq_nil_iff {bad : Nat} (hbad : 0 < bad) (cl : List Nat) :
    cutAtBad bad cl = [] ↔ ∀ c ∈ cl.tail, c < bad := by
  induction cl with
  | nil => exact ⟨fun _ c hc => absurd hc List.not_mem_nil, fun _ => rfl⟩
  | cons c cs ih =>
    rw [cutAtBad, List.tail_cons]
    cases cs with
    | nil =>
      rw [List.headD_nil, if_pos hbad]
      exact ⟨fun _ x hx => absurd hx List.not_mem_nil, fun _ => rfl⟩
    | cons x xs =>
      rw [List.headD_cons, List.forall_mem_cons]
      by_cases hb : x < bad
      · rw [if_pos hb, ih, List.tail_cons, and_iff_right hb]
      · rw [if_neg hb]
        exact ⟨fun h => absurd h (List.cons_ne_nil x xs), fun h => absurd h.1 hb⟩

theorem cutAtBad_suffix (bad : Nat) (cl : List Nat) : cutAtBad bad cl <:+ cl := by
  induction cl with
  | nil => exact List.suffix_rfl
  | cons c cs ih =>
    rw [cutAtBad]
    split
    · exact ih.trans (List.suffix_cons c cs)
    · exact List.suffix_cons c cs

/-- A linked cluster is not free. -/
theorem dec_chainWord_ne_free (hmax : ∀ c ∈ cl, 2 ≤ c ∧ c < t.maxFat + 2) {c : Nat}
    (hc : c ∈ cl) : t.dec (chainWord t w cl c) ≠ fatEntFree := by
  induction cl with
  | nil => exact absurd hc List.not_mem_nil
  | cons a cs ih =>
    by_cases hca : c = a
    · rw [hca, chainWord_head]
      cases cs with
      | nil =>
        rw [List.headD_nil, t.dec_enc_eof]
        decide
      | cons x xs =>
        obtain ⟨hx2, hx⟩ := hmax x (List.mem_cons_of_mem a List.mem_cons_self)
        rw [List.headD_cons, FatBits.dec_enc hx]
        split
        · rw [fatEntFree]
          omega
        · decide
    · rw [chainWord, if_neg hca]
      exact ih (fun x hx => hmax x (List.mem_cons_of_mem a hx))
        ((List.mem_cons.mp hc).resolve_left hca)

end

/-! ### The order of the scan -/

/-- The next `k` entries that the scan visits from `e` on. -/
def scanFrom (max : Nat) : (k e : Nat) → List Nat
  | 0, _ => []
  | k + 1, e => (if max ≤ e then 2 else e) :: scanFrom max k ((if max ≤ e then 2 else e) + 1)

theorem scanFrom_of_lt {max k e : Nat} (h : e < max) :
    scanFrom max (k + 1) e = e :: scanFrom max k (e + 1) := by
  rw [scanFrom, if_neg (Nat.not_le.mpr h)]

theorem scanFrom_wrap {max k e : Nat} (h : 2 < max) :
    scanFrom max k e = scanFrom max k (if max ≤ e then 2 else e) := by
  cases k with
  | zero => rfl
  | succ k =>
    rw [scanFrom, scanFrom]
    split
    · rw [if_neg (Nat.not_le.mpr h)]
    · rfl

theorem scanFrom_eq_range' {max k e : Nat} (h : e + k ≤ max) :
    scanFrom max k e = List.range' e k := by
  induction k generalizing e with
  | zero => rfl
  | succ k ih => rw [scanFrom_of_lt (by omega), ih (by omega), List.range'_succ]

/-- A whole round from `e` on. -/
theorem scanFrom_round {max e : Nat} (h2 : 2 ≤ e) (he : e ≤ max) (hmax : 2 < max) :
    scanFrom max (max - 2) e = List.range' e (max - e) ++ List.range' 2 (e - 2) := by
  have hsplit : ∀ a e, e + a = max → ∀ b, b ≤ max - 2 →
      scanFrom max (a + b) e = List.range' e a ++ List.range' 2 b := by
    intro a
    induction a with
    | zero =>
      intro e hea b hb
      rw [Nat.zero_add, scanFrom_wrap hmax, if_pos (by omega), scanFrom_eq_range' (by omega)]
      rfl
    | succ a ih =>
      intro e hea b hb
      rw [show a + 1 + b = a + b + 1 by omega, scanFrom_of_lt (by omega), ih _ (by omega) b hb,
        List.range'_succ]
      rfl
  rw [← hsplit (max - e) e (by omega) (e - 2) (by omega)]
  congr 1
  omega

/-- The round visits every entry once. -/
theorem scanFrom_perm {max e : Nat} (h2 : 2 ≤ e) (he : e ≤ max) (hmax : 2 < max) :
    (scanFrom max (max - 2) e).Perm (List.range' 2 (max - 2)) := by
  rw [scanFrom_round h2 he hmax]
  apply List.perm_append_comm.trans
  have happ := @List.range'_append 2 (e - 2) (max - e) 1
  rw [show 2 + 1 * (e - 2) = e by omega, show e - 2 + (max - e) = max - 2 by omega] at happ
  rw [happ]

/-! ### Freeing a chain -/

section

variable {sb : FatSb} {io : FatIo} {w : Nat → Nat} {c : Nat} {cs : List Nat}

/-- The table below `max_cluster` is `f`. -/
def TableIs (sb : FatSb) (d : FatDisk) (f : Nat → Nat) : Prop :=
  ∀ e < sb.maxCluster, sb.fatWord d e = f e

/-- Freeing the first cluster of a linked chain leaves the rest of it. -/
private theorem tableIs_freeEntry (hv : sb.Valid) {d : FatDisk} {fe : FatEntry}
    (hat : sb.At fe c) (hd : TableIs sb d (chainWord sb.fatBits w (c :: cs)))
    (hnd : (c :: cs).Nodup) (hrange : ∀ x ∈ c :: cs, 2 ≤ x ∧ x < sb.maxCluster)
    (hfree : sb.fatBits.dec (w c) = fatEntFree) :
    TableIs sb (sb.ops.entPut d fe fatEntFree) (chainWord sb.fatBits w cs) := by
  have hmax := hv.maxCluster
  have hput := sb.entPut_at hv hat d (x := fatEntFree) (.inr (by rw [fatEntFree]; omega))
  rw [List.nodup_cons] at hnd
  intro e he
  rw [hput e]
  by_cases hec : e = c
  · have hnext : cs.headD fatEntEof = fatEntEof ∨
        cs.headD fatEntEof < sb.fatBits.maxFat + 2 := by
      cases cs with
      | nil => exact .inl rfl
      | cons x xs =>
        have := (hrange x (List.mem_cons_of_mem c List.mem_cons_self)).2
        exact .inr (by rw [List.headD_cons]; omega)
    rw [if_pos hec, hec, chainWord_of_notMem hnd.1, hd c (hec ▸ he), chainWord_head,
      FatBits.enc_enc hnext, FatBits.enc_free hfree]
  · rw [if_neg hec, hd e he, chainWord, if_neg hec]

private theorem syncAndMirror_tableIs (hv : sb.Valid) (hio : io.Ok) (sync : Bool) {bhs : List Nat}
    (hb : ∀ b ∈ bhs, sb.fatStart ≤ b) {d : FatDisk} {f : Nat → Nat} (hd : TableIs sb d f) :
    (syncAndMirror sb io sync bhs d).1 = 0 ∧
      TableIs sb (syncAndMirror sb io sync bhs d).2 f := by
  obtain ⟨herr, hw⟩ := FatSb.syncAndMirror_spec hv hio sync hb d
  exact ⟨herr, fun e he => (hw e he).trans (hd e he)⟩

/-- `free_clusters` after `k` clusters were freed. -/
def addFree (f : Int) (k : Nat) : Int := if f = -1 then -1 else f + k

theorem addFree_freeEntry (s : FatState) (fe : FatEntry) :
    (s.freeEntry sb fe).freeClusters = addFree s.freeClusters 1 := by
  rw [FatState.freeEntry, addFree]
  by_cases h : s.freeClusters = -1
  · rw [if_pos h, if_neg (not_not.mpr h), h]
  · rw [if_neg h, if_pos h]
    rfl

theorem addFree_addFree {f : Int} (h : f = -1 ∨ 0 ≤ f) (j k : Nat) :
    addFree (addFree f j) k = addFree f (j + k) := by
  rw [addFree, addFree, addFree]
  split <;> split <;> omega

/-- One round of the loop: the first cluster of the chain is freed, then the loop goes on with the
value that was read or ends. -/
private theorem freeLoop_round (hv : sb.Valid) (hio : io.Ok) (fuel : Nat)
    {s : FatState} {fe : FatEntry} {bhs : List Nat}
    (hd : TableIs sb s.disk (chainWord sb.fatBits w (c :: cs))) (hnd : (c :: cs).Nodup)
    (hrange : ∀ x ∈ c :: cs, 2 ≤ x ∧ x < sb.maxCluster)
    (hfree : sb.fatBits.dec (w c) = fatEntFree) (hheld : sb.Held fe)
    (hbhs : ∀ b ∈ bhs, sb.fatStart ≤ b) :
    ∃ s' fe' bhs', TableIs sb s'.disk (chainWord sb.fatBits w cs) ∧
      s'.freeClusters = addFree s.freeClusters 1 ∧ sb.Held fe' ∧
      (∀ b ∈ bhs', sb.fatStart ≤ b) ∧
      freeLoop sb io (fuel + 1) s fe bhs c =
        if sb.fatBits.dec (sb.fatBits.enc (cs.headD fatEntEof) (w c)) ≠ fatEntEof then
          freeLoop sb io fuel s' fe' bhs'
            (sb.fatBits.dec (sb.fatBits.enc (cs.headD fatEntEof) (w c)))
        else some ((syncAndMirror sb io sb.synchronous bhs' s'.disk).1,
          { s' with disk := (syncAndMirror sb io sb.synchronous bhs' s'.disk).2 }) := by
  obtain ⟨hc2, hcmax⟩ := hrange c List.mem_cons_self
  have hmax := hv.maxCluster
  obtain ⟨fe', he, hat⟩ := sb.entRead_at hv hio.bread hheld hc2 hcmax s.disk
  have hne : sb.fatBits.dec (sb.fatWord s.disk c) ≠ fatEntFree := by
    rw [hd c hcmax]
    apply dec_chainWord_ne_free _ List.mem_cons_self
    intro x hx
    have := hrange x hx
    omega
  have htable := tableIs_freeEntry hv hat hd hnd hrange hfree
  have hflush : ∀ (p : Prop) [Decidable p],
      (if p then syncAndMirror sb io sb.synchronous bhs (s.freeEntry sb fe').disk
        else (0, (s.freeEntry sb fe').disk)).1 = 0 ∧
      TableIs sb (if p then syncAndMirror sb io sb.synchronous bhs (s.freeEntry sb fe').disk
        else (0, (s.freeEntry sb fe').disk)).2 (chainWord sb.fatBits w cs) := by
    intro p _
    split
    · exact syncAndMirror_tableIs hv hio _ hbhs htable
    · exact ⟨rfl, htable⟩
  obtain ⟨herr, htable'⟩ := hflush (maxBufPerPage < bhs.length + fe'.bhs.length)
  rw [hd c hcmax, chainWord_head] at he hne
  rw [freeLoop, he]
  dsimp only
  rw [if_neg hne, if_neg (not_not.mpr herr)]
  refine ⟨{ s.freeEntry sb fe' with disk := _ }, fe', fatCollectBhs _ fe', htable',
    @addFree_freeEntry sb s fe', hat.held, ?_, rfl⟩
  apply FatSb.fatStart_le_collect _ hat
  split
  · exact fun b hb => absurd hb List.not_mem_nil
  · exact hbhs

/-- The loop frees the clusters of a linked chain until a value ends it. -/
theorem freeLoop_spec (hv : sb.Valid) (hio : io.Ok) (cs : List Nat) :
    ∀ (c fuel : Nat) (s : FatState) (fe : FatEntry) (bhs : List Nat),
      TableIs sb s.disk (chainWord sb.fatBits w (c :: cs)) → (c :: cs).Nodup →
      (∀ x ∈ c :: cs, 2 ≤ x ∧ x < sb.maxCluster) →
      (∀ x ∈ c :: cs, sb.fatBits.dec (w x) = fatEntFree) → sb.Held fe →
      (∀ b ∈ bhs, sb.fatStart ≤ b) → (s.freeClusters = -1 ∨ 0 ≤ s.freeClusters) →
      cs.length < fuel →
      ∃ s', freeLoop sb io fuel s fe bhs c = some (0, s') ∧
        TableIs sb s'.disk (chainWord sb.fatBits w (cutAtBad sb.fatBits.bad (c :: cs))) ∧
        s'.freeClusters = addFree s.freeClusters
          ((c :: cs).length - (cutAtBad sb.fatBits.bad (c :: cs)).length) := by
  induction cs with
  | nil =>
    intro c fuel s fe bhs hd hnd hrange hfree hheld hbhs hf hfuel
    obtain ⟨fuel, rfl⟩ := Nat.exists_eq_add_of_lt hfuel
    obtain ⟨s', fe', bhs', htable, hcount, -, hbhs', he⟩ := freeLoop_round hv hio fuel hd
      hnd hrange (hfree c List.mem_cons_self) hheld hbhs
    rw [List.headD_nil, FatBits.dec_enc_eof, if_neg (not_not.mpr rfl)] at he
    obtain ⟨herr, htable'⟩ := syncAndMirror_tableIs hv hio sb.synchronous hbhs' htable
    rw [herr] at he
    have hcut : cutAtBad sb.fatBits.bad [c] = [] :=
      (cutAtBad_eq_nil_iff (by cases sb.fatBits <;> decide) [c]).mpr fun x hx =>
        absurd hx List.not_mem_nil
    rw [hcut]
    refine ⟨{ s' with disk := _ }, ?_, htable', hcount⟩
    rw [show ([] : List Nat).length + fuel + 1 = fuel + 1 by rw [List.length_nil, Nat.zero_add]]
    exact he
  | cons c' cs ih =>
    intro c fuel s fe bhs hd hnd hrange hfree hheld hbhs hf hfuel
    obtain ⟨fuel, rfl⟩ := Nat.exists_eq_succ_of_ne_zero (Nat.ne_zero_of_lt hfuel)
    obtain ⟨s', fe', bhs', htable, hcount, hheld', hbhs', he⟩ := freeLoop_round hv
      hio fuel hd hnd hrange (hfree c List.mem_cons_self) hheld hbhs
    have hmax := hv.maxCluster
    obtain ⟨hc2, hcmax⟩ := hrange c' (List.mem_cons_of_mem c List.mem_cons_self)
    rw [List.headD_cons, FatBits.dec_enc (by omega)] at he
    by_cases hb : c' < sb.fatBits.bad
    · -- the value is the next cluster
      have hne : c' ≠ fatEntEof := by
        have : sb.fatBits.bad ≤ fatEntEof := by cases sb.fatBits <;> decide
        omega
      rw [if_pos hb, if_pos hne] at he
      have hf' : s'.freeClusters = -1 ∨ 0 ≤ s'.freeClusters := by
        rw [hcount, addFree]
        split <;> omega
      obtain ⟨s'', he', htable'', hcount''⟩ := ih c' fuel s' fe' bhs' htable
        (List.nodup_cons.mp hnd).2 (fun x hx => hrange x (List.mem_cons_of_mem c hx))
        (fun x hx => hfree x (List.mem_cons_of_mem c hx)) hheld' hbhs' hf'
        (by rw [List.length_cons] at hfuel; omega)
      have hcut : cutAtBad sb.fatBits.bad (c :: c' :: cs) = cutAtBad sb.fatBits.bad (c' :: cs) :=
        if_pos hb
      have hle := (cutAtBad_suffix sb.fatBits.bad (c' :: cs)).length_le
      rw [hcut]
      refine ⟨s'', he.trans he', htable'', ?_⟩
      rw [hcount'', hcount, addFree_addFree hf]
      congr 1
      rw [List.length_cons (a := c)]
      omega
    · -- the value ends the chain
      rw [if_neg hb, if_neg (not_not.mpr rfl)] at he
      obtain ⟨herr, htable'⟩ := syncAndMirror_tableIs hv hio sb.synchronous hbhs' htable
      rw [herr] at he
      have hcut : cutAtBad sb.fatBits.bad (c :: c' :: cs) = c' :: cs := if_neg hb
      rw [hcut]
      refine ⟨_, he, htable', ?_⟩
      rw [List.length_cons (a := c), Nat.add_sub_cancel_left]
      exact hcount

/-! ### Allocating a chain -/

/-- The entry is free. -/
def isFreeIn (sb : FatSb) (d : FatDisk) (e : Nat) : Bool :=
  sb.fatBits.dec (sb.fatWord d e) == fatEntFree

/-- A list of different free clusters. -/
structure FreeList (sb : FatSb) (d : FatDisk) (l : List Nat) : Prop where
  nodup : l.Nodup
  range : ∀ c ∈ l, 2 ≤ c ∧ c < sb.maxCluster
  free : ∀ c ∈ l, isFreeIn sb d c = true

/-- The scan has linked `cluster` and has yet to visit `rest`; `l` are all free clusters. -/
structure AllocInv (sb : FatSb) (d : FatDisk) (l rest : List Nat) (st : AllocState) : Prop where
  clusters : st.cluster ++ rest.filter (isFreeIn sb d) = l
  table : TableIs sb st.fat.disk (chainWord sb.fatBits (sb.fatWord d) st.cluster)
  prev : st.cluster = [] ∧ st.prevEnt.bhs = [] ∨
    ∃ pre c, st.cluster = pre ++ [c] ∧ sb.At st.prevEnt c
  bhs : ∀ b ∈ st.bhs, sb.fatStart ≤ b
  count : st.fat.freeClusters = -1 ∨
    st.fat.freeClusters = ((rest.filter (isFreeIn sb d)).length : Int)

variable {d : FatDisk} {l rest : List Nat} {st : AllocState} {e : Nat}

/-- An entry that is yet to be visited was not linked. -/
theorem AllocInv.notMem (h : AllocInv sb d l (e :: rest) st) (hl : FreeList sb d l) :
    e ∉ st.cluster := by
  intro hmem
  have hfree : isFreeIn sb d e = true := by
    apply hl.free
    rw [← h.clusters]
    exact List.mem_append_left _ hmem
  have hnd := hl.nodup
  rw [← h.clusters, List.nodup_append, List.filter_cons_of_pos hfree] at hnd
  exact hnd.2.2 e hmem e List.mem_cons_self rfl

/-- The scan sees whether the entry was free before. -/
theorem AllocInv.isFree_eq (hv : sb.Valid) (h : AllocInv sb d l (e :: rest) st)
    (hl : FreeList sb d l) (hat : sb.At st.fatent e) (he : e < sb.maxCluster) :
    st.isFree sb = isFreeIn sb d e := by
  rw [AllocState.isFree, isFreeIn, sb.entGet_at hv hat, h.table e he,
    chainWord_of_notMem (h.notMem hl)]

/-- Linking a free entry. -/
theorem AllocInv.link (hv : sb.Valid) (h : AllocInv sb d l (e :: rest) st) (hl : FreeList sb d l)
    (hat : sb.At st.fatent e) (he : e < sb.maxCluster) (hfree : isFreeIn sb d e = true) :
    AllocInv sb d l rest (st.link sb) := by
  have hmax := hv.maxCluster
  have hnotMem := h.notMem hl
  have hclusters : st.cluster ++ [e] ++ rest.filter (isFreeIn sb d) = l := by
    rw [← h.clusters, List.filter_cons_of_pos hfree, List.append_assoc]
    rfl
  have hcluster : (st.link sb).cluster = st.cluster ++ [e] := by rw [← hat.entry]; rfl
  have hput := sb.entPut_at hv hat st.fat.disk (x := fatEntEof) (.inl rfl)
  refine ⟨by rw [hcluster, hclusters], ?_, .inr ⟨st.cluster, e, hcluster, hat⟩,
    FatSb.fatStart_le_collect h.bhs hat, ?_⟩
  · rw [hcluster]
    show TableIs sb (if st.prevEnt.bhs.length ≠ 0 then
      sb.ops.entPut (sb.ops.entPut st.fat.disk st.fatent fatEntEof) st.prevEnt st.fatent.entry
      else sb.ops.entPut st.fat.disk st.fatent fatEntEof) _
    rcases h.prev with ⟨hnil, hprev⟩ | ⟨pre, c, hlast, hprev⟩
    · rw [hprev, if_neg (by decide), hnil]
      intro x hx
      rw [hput x, List.nil_append, chainWord]
      by_cases hxe : x = e
      · rw [if_pos hxe, if_pos hxe, h.table e he, chainWord_of_notMem hnotMem, hxe]
        rfl
      · rw [if_neg hxe, if_neg hxe, h.table x hx, hnil]
    · have hc : c ∈ l := by
        rw [← h.clusters, hlast]
        exact List.mem_append_left _ (List.mem_append_right _ List.mem_cons_self)
      have hcmax := (hl.range c hc).2
      have hne : c ≠ e := by
        rintro rfl
        rw [hlast] at hnotMem
        exact hnotMem (List.mem_append_right _ List.mem_cons_self)
      have hnd : (pre ++ [c] ++ [e]).Nodup := by
        have := hl.nodup
        rw [← hclusters, hlast] at this
        exact (List.nodup_append.mp this).1
      have hcpre : c ∉ pre := fun hmem =>
        (List.nodup_append.mp (List.nodup_append.mp hnd).1).2.2 c hmem c List.mem_cons_self rfl
      have hput' := sb.entPut_at hv hprev (sb.ops.entPut st.fat.disk st.fatent fatEntEof)
        (x := st.fatent.entry) (.inr (by rw [hat.entry]; omega))
      rw [if_pos (by rw [hprev.bhs]; exact sb.length_blocks_ne_zero c), hlast]
      intro x hx
      rw [hput' x, chainWord_concat hnd]
      by_cases hxc : x = c
      · rw [if_pos hxc, if_neg (by rw [hxc]; exact hne), if_pos hxc, hput c, if_neg hne,
          h.table c hcmax, hlast, chainWord_last hcpre, FatBits.enc_enc (.inl rfl), hat.entry, hxc]
      · rw [if_neg hxc, if_neg hxc, hput x]
        by_cases hxe : x = e
        · rw [if_pos hxe, if_pos hxe, h.table e he, chainWord_of_notMem hnotMem, hxe]
        · rw [if_neg hxe, if_neg hxe, h.table x hx, hlast]
  · have hcount := h.count
    rw [List.filter_cons_of_pos hfree, List.length_cons] at hcount
    show (if st.fat.freeClusters ≠ -1 then st.fat.freeClusters - 1 else st.fat.freeClusters) = -1 ∨
      (if st.fat.freeClusters ≠ -1 then st.fat.freeClusters - 1 else st.fat.freeClusters) = _
    split <;> omega

/-- Passing over an entry that is not free. -/
theorem AllocInv.skip (h : AllocInv sb d l (e :: rest) st) (hfree : ¬ isFreeIn sb d e = true) :
    AllocInv sb d l rest st := by
  obtain ⟨hclusters, htable, hprev, hbhs, hcount⟩ := h
  rw [List.filter_cons_of_neg hfree] at hclusters hcount
  exact ⟨hclusters, htable, hprev, hbhs, hcount⟩

/-- The invariant does not speak of the entry that is looked at, nor of the counter. -/
theorem AllocInv.setFatent (h : AllocInv sb d l rest st) (fe : FatEntry) (count : Nat) :
    AllocInv sb d l rest { st with
      fatent := fe
      count := count } :=
  ⟨h.clusters, h.table, h.prev, h.bhs, h.count⟩

/-- What the loop over a block has done: found the last cluster, or visited some entries. -/
def BlockResult (sb : FatSb) (d : FatDisk) (l : List Nat) (nr n : Nat) (r : Bool × AllocState) :
    Prop :=
  (r.1 = true ∧ r.2.cluster.length = nr ∧ ∃ rest, AllocInv sb d l rest r.2) ∨
    (r.1 = false ∧ r.2.cluster.length < nr ∧ ∃ n' < n, r.2.count + n' = sb.maxCluster ∧
      2 ≤ r.2.fatent.entry ∧
      AllocInv sb d l (scanFrom sb.maxCluster n' r.2.fatent.entry) r.2)

theorem allocBlock_spec (hv : sb.Valid) (hl : FreeList sb d l) (nr : Nat) (n : Nat) :
    ∀ (e : Nat) (st : AllocState), 0 < n → st.count + n = sb.maxCluster → 2 ≤ e →
      e < sb.maxCluster → sb.At st.fatent e → st.cluster.length < nr →
      AllocInv sb d l (scanFrom sb.maxCluster n e) st →
      BlockResult sb d l nr n (allocBlock sb nr n st) := by
  induction n with
  | zero =>
    intro e st hpos
    omega
  | succ n ih =>
    intro e st _ hcount h2 he hat hlen h
    rw [scanFrom_of_lt he] at h
    have hfree := h.isFree_eq hv hl hat he
    -- the rest of a round, after the entry was linked or passed over
    have htail (st' : AllocState) (h' : AllocInv sb d l (scanFrom sb.maxCluster n (e + 1)) st')
        (hlen' : st'.cluster.length < nr) (hat' : sb.At st'.fatent e)
        (hcount' : st'.count = st.count) :
        BlockResult sb d l nr (n + 1)
          (if st'.count + 1 = sb.maxCluster then (false, { st' with count := st'.count + 1 })
          else if (fatEntNext sb st'.fatent).1 then
            allocBlock sb nr n { st' with
              fatent := (fatEntNext sb st'.fatent).2
              count := st'.count + 1 }
          else (false, { st' with
              fatent := (fatEntNext sb st'.fatent).2
              count := st'.count + 1 })) := by
      obtain ⟨hentry, hnext⟩ := sb.entNext_at hv hat'
      split
      next hlast =>
        obtain rfl : n = 0 := by omega
        refine .inr ⟨rfl, hlen', 0, Nat.zero_lt_one, by dsimp only; omega, ?_, ?_⟩
        · rw [hat'.entry]
          exact h2
        · exact h'.setFatent _ _
      next hlast =>
        split
        next hmore =>
          rw [fatEntNext, Bool.and_eq_true, decide_eq_true_eq] at hmore
          rw [hentry] at hmore
          rcases ih (e + 1) { st' with
              fatent := (fatEntNext sb st'.fatent).2
              count := st'.count + 1 } (by omega) (by dsimp only; omega) (by omega) hmore.2
            (hnext hmore.1) hlen' (h'.setFatent _ _) with hdone | ⟨hf, hlt, n', hn', hrest⟩
          · exact .inl hdone
          · exact .inr ⟨hf, hlt, n', by omega, hrest⟩
        next hmore =>
          refine .inr ⟨rfl, hlen', n, Nat.lt_succ_self n, by dsimp only; omega, ?_, ?_⟩
          · show 2 ≤ (sb.ops.entNext sb st'.fatent).2.entry
            omega
          · show AllocInv sb d l (scanFrom sb.maxCluster n (sb.ops.entNext sb st'.fatent).2.entry) _
            rw [hentry]
            exact h'.setFatent _ _
    rw [allocBlock, hfree]
    by_cases hf : isFreeIn sb d e = true
    · have h' := h.link hv hl hat he hf
      have hlen' : (st.link sb).cluster.length = st.cluster.length + 1 := List.length_append
      rw [hf]
      dsimp only
      rw [if_pos rfl]
      split
      next hdone => exact .inl ⟨rfl, hdone.2, _, h'⟩
      next hdone =>
        have hne : (st.link sb).cluster.length ≠ nr := fun hn => hdone ⟨rfl, hn⟩
        exact htail _ h' (by omega) hat rfl
    · rw [Bool.not_eq_true] at hf
      rw [hf]
      dsimp only
      rw [if_neg Bool.false_ne_true, if_neg fun hc => Bool.false_ne_true hc.1]
      exact htail _ (h.skip (by rw [hf]; exact Bool.false_ne_true)) hlen hat rfl

/-- What the scan ends with: as many clusters as asked for, or all there are. -/
def ScanResult (sb : FatSb) (d : FatDisk) (l : List Nat) (nr : Nat) (err : Int)
    (st : AllocState) : Prop :=
  (err = 0 ∧ st.cluster.length = nr ∧ ∃ rest, AllocInv sb d l rest st) ∨
    (err = -enospc ∧ st.cluster.length < nr ∧ st.cluster = l ∧
      TableIs sb st.fat.disk (chainWord sb.fatBits (sb.fatWord d) l) ∧ st.fat.freeClusters = 0)

theorem allocLoop_spec (hv : sb.Valid) (hio : io.Ok) (hl : FreeList sb d l)
    (hmax : 2 < sb.maxCluster)
    (nr : Nat) (fuel : Nat) :
    ∀ (n : Nat) (st : AllocState), n < fuel → st.count + n = sb.maxCluster →
      2 ≤ st.fatent.entry → st.cluster.length < nr →
      AllocInv sb d l (scanFrom sb.maxCluster n st.fatent.entry) st →
      ∃ err st', allocLoop sb io nr fuel st = some (err, st') ∧ ScanResult sb d l nr err st' := by
  induction fuel with
  | zero =>
    intro n st hn
    omega
  | succ fuel ih =>
    intro n st hn hcount h2 hlen h
    rw [allocLoop]
    split
    next hc =>
      have hwrap : 2 ≤ (if sb.maxCluster ≤ st.fatent.entry then fatStartEnt else st.fatent.entry) ∧
          (if sb.maxCluster ≤ st.fatent.entry then fatStartEnt else st.fatent.entry) <
            sb.maxCluster := by
        rw [fatStartEnt]
        split <;> omega
      rw [scanFrom_wrap hmax] at h
      change AllocInv sb d l (scanFrom sb.maxCluster n
        (if sb.maxCluster ≤ st.fatent.entry then fatStartEnt else st.fatent.entry)) st at h
      dsimp only
      generalize (if sb.maxCluster ≤ st.fatent.entry then fatStartEnt else st.fatent.entry) = e
        at hwrap h ⊢
      obtain ⟨fe, hread, hat⟩ := sb.readBlock_at hio.bread (st.fatent.setEntry e)
      obtain rfl : n = sb.maxCluster - st.count := by omega
      have hblock := allocBlock_spec hv hl nr (sb.maxCluster - st.count) e { st with fatent := fe }
        (by omega) hcount hwrap.1 hwrap.2 hat hlen (h.setFatent fe st.count)
      rw [hread]
      dsimp only
      generalize allocBlock sb nr (sb.maxCluster - st.count) { st with fatent := fe } = r
        at hblock ⊢
      obtain ⟨done, st'⟩ := r
      rcases hblock with ⟨rfl, hlen', hrest⟩ | ⟨rfl, hlen', n', hn', hcount', h2', hinv⟩
      · exact ⟨0, st', rfl, .inl ⟨rfl, hlen', hrest⟩⟩
      · exact ih n' st' (by omega) hcount' h2' hlen' hinv
    next hc =>
      obtain rfl : n = 0 := by omega
      have hcl : st.cluster = l := by
        have := h.clusters
        rw [scanFrom, List.filter_nil, List.append_nil] at this
        exact this
      refine ⟨_, _, rfl, .inr ⟨rfl, hlen, hcl, ?_, rfl⟩⟩
      rw [← hcl]
      exact h.table

/-! ### The whole functions -/

/-- The free clusters in the order of the scan. -/
def freeScan (sb : FatSb) (s : FatState) : List Nat :=
  (scanFrom sb.maxCluster (sb.maxCluster - 2) (s.prevFree + 1)).filter (isFreeIn sb s.disk)

/-- The number of free clusters. -/
def numFree (sb : FatSb) (d : FatDisk) : Nat :=
  (List.range' 2 (sb.maxCluster - 2)).countP (isFreeIn sb d)

/-- `prev_free` is a cluster number. -/
def PrevFreeOk (sb : FatSb) (s : FatState) : Prop := 2 ≤ s.prevFree ∧ s.prevFree < sb.maxCluster

variable {s : FatState}

private theorem scan_perm (h : PrevFreeOk sb s) :
    (scanFrom sb.maxCluster (sb.maxCluster - 2) (s.prevFree + 1)).Perm
      (List.range' 2 (sb.maxCluster - 2)) := by
  obtain ⟨h2, hmax⟩ := h
  exact scanFrom_perm (by omega) (by omega) (by omega)

theorem freeScan_freeList (h : PrevFreeOk sb s) : FreeList sb s.disk (freeScan sb s) where
  nodup := ((scan_perm h).nodup_iff.mpr List.nodup_range').filter _
  range c hc := by
    have hmem := List.mem_range'_1.mp ((scan_perm h).mem_iff.mp (List.mem_filter.mp hc).1)
    obtain ⟨h2, hmax⟩ := h
    omega
  free c hc := (List.mem_filter.mp hc).2

theorem numFree_eq (h : PrevFreeOk sb s) (d : FatDisk) : numFree sb d =
    ((scanFrom sb.maxCluster (sb.maxCluster - 2) (s.prevFree + 1)).filter
      (isFreeIn sb d)).length := by
  rw [numFree, ← (scan_perm h).countP_eq, List.countP_eq_length_filter]

/-- The free clusters after some of them were linked. -/
theorem numFree_of_chain (hv : sb.Valid) (h : PrevFreeOk sb s) {d' : FatDisk} {cl rest : List Nat}
    (hl : cl ++ rest = freeScan sb s)
    (hd : TableIs sb d' (chainWord sb.fatBits (sb.fatWord s.disk) cl)) :
    numFree sb d' = rest.length := by
  have hfl := freeScan_freeList h
  have hmax := hv.maxCluster
  have hfree : ∀ e ∈ scanFrom sb.maxCluster (sb.maxCluster - 2) (s.prevFree + 1),
      isFreeIn sb d' e = (decide (e ∉ cl) && isFreeIn sb s.disk e) := by
    intro e he
    have hrange := List.mem_range'_1.mp ((scan_perm h).mem_iff.mp he)
    rw [isFreeIn, hd e (by omega)]
    by_cases hcl : e ∈ cl
    · have hne := @dec_chainWord_ne_free sb.fatBits (sb.fatWord s.disk) cl
        (fun c hc => by
          have := hfl.range c (hl ▸ List.mem_append_left _ hc)
          omega) e hcl
      rw [decide_eq_false (not_not.mpr hcl), Bool.false_and]
      exact beq_eq_false_iff_ne.mpr hne
    · rw [chainWord_of_notMem hcl, decide_eq_true hcl, Bool.true_and]
      rfl
  have hnd := hfl.nodup
  rw [← hl, List.nodup_append] at hnd
  rw [numFree_eq h, List.filter_congr hfree, ← List.filter_filter]
  show ((freeScan sb s).filter fun e => decide (e ∉ cl)).length = _
  have hcl : cl.filter (fun e => decide (e ∉ cl)) = [] :=
    List.filter_eq_nil_iff.mpr fun e he => by simp only [he, not_true_eq_false, decide_false,
      Bool.false_eq_true, not_false_eq_true]
  have hrest : rest.filter (fun e => decide (e ∉ cl)) = rest :=
    List.filter_eq_self.mpr fun e he => decide_eq_true fun hmem => hnd.2.2 e hmem e he rfl
  rw [← hl, List.filter_append, hcl, hrest, List.nil_append]

/-- What allocating `nr` clusters is to do. -/
structure AllocSpec (sb : FatSb) (io : FatIo) (s : FatState) (nr : Nat) (err : Int)
    (cluster : List Nat) (s' : FatState) : Prop where
  result : if nr ≤ numFree sb s.disk then err = 0 else err = -enospc
  allocated : err = 0 → cluster.length = nr ∧ FreeList sb s.disk cluster
  chain : err = 0 → IsFatChain (fun e => sb.fatBits.dec (sb.fatWord s'.disk e)) cluster
  others : ∀ e, 2 ≤ e → e < sb.maxCluster → err ≠ 0 ∨ e ∉ cluster →
    sb.fatWord s'.disk e = sb.fatWord s.disk e
  count : s'.freeClusters = -1 ∨ s'.freeClusters = numFree sb s'.disk
  restored : err = 0 → ∃ s'', fatFreeClusters sb io s' (cluster.headD 0) = some (0, s'') ∧
    ∀ e, 2 ≤ e → e < sb.maxCluster → sb.fatWord s''.disk e = sb.fatWord s.disk e

theorem AllocSpec.err_eq {nr : Nat} {err : Int} {cluster : List Nat} {s' : FatState}
    (h : AllocSpec sb io s nr err cluster s') (hn : nr ≤ numFree sb s.disk) : err = 0 := by
  have hresult := h.result
  rw [if_pos hn] at hresult
  exact hresult

/-- The condition: the request is refused at once, or every cluster after the first one that the
scan finds has a number that an entry can hold. -/
def AllocOk (sb : FatSb) (s : FatState) (nr : Nat) : Prop :=
  (s.freeClusters ≠ -1 ∧ s.freeClusValid = true ∧ s.freeClusters < nr) ∨
    ∀ c ∈ ((freeScan sb s).take nr).tail, c < sb.fatBits.bad

/-- Freeing a linked chain from its first cluster on. -/
private theorem fatFreeClusters_spec (hv : sb.Valid) (hio : io.Ok) {d : FatDisk}
    (hl : FreeList sb d (c :: cs))
    (hd : TableIs sb s.disk (chainWord sb.fatBits (sb.fatWord d) (c :: cs)))
    (hf : s.freeClusters = -1 ∨ 0 ≤ s.freeClusters) :
    ∃ s', fatFreeClusters sb io s c = some (0, s') ∧
      TableIs sb s'.disk (chainWord sb.fatBits (sb.fatWord d) (cutAtBad sb.fatBits.bad (c :: cs))) ∧
      s'.freeClusters = addFree s.freeClusters
        ((c :: cs).length - (cutAtBad sb.fatBits.bad (c :: cs)).length) := by
  have hlen : (c :: cs).length ≤ sb.maxCluster := by
    have hsub : (c :: cs).Subperm (List.range sb.maxCluster) :=
      List.subperm_of_subset hl.nodup fun x hx => List.mem_range.mpr (hl.range x hx).2
    have := hsub.length_le
    rw [List.length_range] at this
    exact this
  exact freeLoop_spec hv hio cs c sb.maxCluster s .init [] hd hl.nodup hl.range
    (fun x hx => beq_iff_eq.mp (hl.free x hx)) (.inl rfl)
    (fun b hb => absurd hb List.not_mem_nil) hf
    hlen

/-- A table with a cut chain is the old one only if nothing is left of the chain. -/
private theorem cutAtBad_eq_nil_of_tableIs (hv : sb.Valid) {d d' : FatDisk} {cl : List Nat}
    (hl : FreeList sb d cl)
    (hd : TableIs sb d' (chainWord sb.fatBits (sb.fatWord d) (cutAtBad sb.fatBits.bad cl)))
    (hsame : ∀ e, 2 ≤ e → e < sb.maxCluster → sb.fatWord d' e = sb.fatWord d e) :
    cutAtBad sb.fatBits.bad cl = [] := by
  have hmax := hv.maxCluster
  have hsub := (cutAtBad_suffix sb.fatBits.bad cl).subset
  generalize cutAtBad sb.fatBits.bad cl = cut at hd hsub
  cases cut with
  | nil => rfl
  | cons c cs =>
    have hc := hl.range c (hsub List.mem_cons_self)
    have hne := @dec_chainWord_ne_free sb.fatBits (sb.fatWord d) (c :: cs)
      (fun x hx => by
        have := hl.range x (hsub hx)
        omega) c List.mem_cons_self
    rw [← hd c hc.2, hsame c hc.1 hc.2] at hne
    exact absurd (beq_iff_eq.mp (hl.free c (hsub List.mem_cons_self))) hne

/-- The scan found all clusters. -/
private theorem allocSpec_of_success (hv : sb.Valid) (hio : io.Ok) (hprev : PrevFreeOk sb s)
    {nr : Nat} (hnr : 1 ≤ nr) {cl rest : List Nat} {s' : FatState}
    (hl : cl ++ rest = freeScan sb s) (hlen : cl.length = nr)
    (hd : TableIs sb s'.disk (chainWord sb.fatBits (sb.fatWord s.disk) cl))
    (hcount : s'.freeClusters = -1 ∨ s'.freeClusters = (rest.length : Int)) :
    AllocSpec sb io s nr 0 cl s' ↔ ∀ c ∈ cl.tail, c < sb.fatBits.bad := by
  have hfl := freeScan_freeList hprev
  have hmax := hv.maxCluster
  have hcl : FreeList sb s.disk cl := by
    refine ⟨?_, fun c hc => hfl.range c ?_, fun c hc => hfl.free c ?_⟩
    · have := hfl.nodup
      rw [← hl] at this
      exact (List.nodup_append.mp this).1
    · exact hl ▸ List.mem_append_left _ hc
    · exact hl ▸ List.mem_append_left _ hc
  have hchain : IsFatChain (fun e => sb.fatBits.dec (sb.fatWord s'.disk e)) cl ↔
      ∀ c ∈ cl.tail, c < sb.fatBits.bad := by
    rw [← isFatChain_iff (w := sb.fatWord s.disk) hcl.nodup fun c hc => by
      have := (hcl.range c hc).2
      omega]
    exact IsFatChain.congr fun c hc => by rw [hd c (hcl.range c hc).2]
  constructor
  · intro hspec
    exact hchain.mp (hspec.chain rfl)
  · intro hok
    have hnum : numFree sb s.disk = cl.length + rest.length := by
      rw [numFree_eq hprev, ← List.length_append, hl]
      rfl
    refine ⟨by rw [if_pos (by omega)], fun _ => ⟨hlen, hcl⟩, fun _ => hchain.mpr hok, ?_, ?_, ?_⟩
    · intro e _ he hor
      rw [hd e he, chainWord_of_notMem (hor.resolve_left (not_not.mpr rfl))]
    · rw [numFree_of_chain hv hprev hl hd]
      exact hcount
    · intro _
      cases cl with
      | nil =>
        rw [List.length_nil] at hlen
        omega
      | cons c cs =>
        have hcut := (cutAtBad_eq_nil_iff (by cases sb.fatBits <;> decide) (c :: cs)).mpr hok
        obtain ⟨s'', he, htable, -⟩ := fatFreeClusters_spec hv hio hcl hd (by omega)
        rw [hcut] at htable
        exact ⟨s'', he, fun e _ he => htable e he⟩

/-- There are not enough clusters, and what was allocated has been freed. -/
private theorem allocSpec_of_failure (hv : sb.Valid) (hprev : PrevFreeOk sb s) {nr : Nat}
    {s' : FatState} (hlen : (freeScan sb s).length < nr)
    (hd : TableIs sb s'.disk (chainWord sb.fatBits (sb.fatWord s.disk)
      (cutAtBad sb.fatBits.bad (freeScan sb s))))
    (hcount : s'.freeClusters =
      ((freeScan sb s).length - (cutAtBad sb.fatBits.bad (freeScan sb s)).length : Nat)) :
    AllocSpec sb io s nr (-enospc) (freeScan sb s) s' ↔
      ∀ c ∈ (freeScan sb s).tail, c < sb.fatBits.bad := by
  have hfl := freeScan_freeList hprev
  have herr : -enospc ≠ 0 := by decide
  rw [← cutAtBad_eq_nil_iff (by cases sb.fatBits <;> decide)]
  constructor
  · intro hspec
    exact cutAtBad_eq_nil_of_tableIs hv hfl hd fun e h2 he => hspec.others e h2 he (.inl herr)
  · intro hcut
    rw [hcut] at hd hcount
    have hnum : numFree sb s.disk = (freeScan sb s).length := numFree_eq hprev s.disk
    refine ⟨by rw [if_neg (by omega)], fun h => absurd h herr, fun h => absurd h herr,
      fun e _ he _ => hd e he, .inr ?_, fun h => absurd h herr⟩
    rw [hcount, numFree_of_chain hv hprev (List.nil_append (freeScan sb s)) hd]
    rfl

/-- The request is refused at once. -/
private theorem allocSpec_of_refused {nr : Nat}
    (hfree : s.freeClusters = numFree sb s.disk) (hlt : s.freeClusters < nr) :
    AllocSpec sb io s nr (-enospc) [] s := by
  have herr : -enospc ≠ 0 := by decide
  exact ⟨by rw [if_neg (by omega)], fun h => absurd h herr, fun h => absurd h herr,
    fun _ _ _ _ => rfl, .inr hfree, fun h => absurd h herr⟩

/-- The first part of the free clusters in the order of the scan. -/
private theorem eq_take_of_append {cl rest l : List Nat} (h : cl ++ rest = l) {nr : Nat}
    (hlen : cl.length = nr) : cl = l.take nr := by
  rw [← h, ← hlen, List.take_left']
  rfl

/-- Without I/O errors, allocating clusters does what it is to do exactly if every cluster after the
first one has a number that an entry can hold, or the request is refused at once. -/
theorem fat_alloc_clusters_iff (hv : sb.Valid) (hio : io.Ok) (hprev : PrevFreeOk sb s)
    (hfree : s.freeClusters = -1 ∨ s.freeClusters = numFree sb s.disk) {nr : Nat} (hnr : 1 ≤ nr)
    (hbuf : nr ≤ maxBufPerPage / 2) (needsSync : Bool) :
    ∃ err cluster s', fatAllocClusters sb io needsSync s nr = some (err, cluster, s') ∧
      (AllocSpec sb io s nr err cluster s' ↔ AllocOk sb s nr) := by
  rw [fatAllocClusters, if_neg (Nat.not_lt.mpr hbuf)]
  split
  next hc =>
    have hspec : AllocSpec sb io s nr (-enospc) [] s :=
      allocSpec_of_refused (hfree.resolve_left hc.1) hc.2.2
    exact ⟨_, _, _, rfl, fun _ => .inl hc, fun _ => hspec⟩
  next hc =>
    have hok : AllocOk sb s nr ↔ ∀ c ∈ ((freeScan sb s).take nr).tail, c < sb.fatBits.bad :=
      or_iff_right hc
    rw [hok]
    have hfl := freeScan_freeList hprev
    have hnum : numFree sb s.disk = (freeScan sb s).length := numFree_eq hprev s.disk
    have hinit : AllocInv sb s.disk (freeScan sb s)
        (scanFrom sb.maxCluster (sb.maxCluster - 2) (s.prevFree + 1))
        ⟨s, FatEntry.init.setEntry (s.prevFree + 1), .init, [], [], fatStartEnt⟩ :=
      ⟨rfl, fun _ _ => rfl, .inl ⟨rfl, rfl⟩, fun b hb => absurd hb List.not_mem_nil,
        hfree.imp_right fun h => by rw [h, hnum]; rfl⟩
    obtain ⟨h2, hmax⟩ := hprev
    obtain ⟨err, st, he, hres⟩ := allocLoop_spec hv hio hfl (by omega) nr sb.maxCluster
      (sb.maxCluster - 2) ⟨s, FatEntry.init.setEntry (s.prevFree + 1), .init, [], [], fatStartEnt⟩
      (by omega) (show 2 + (sb.maxCluster - 2) = _ by omega) (show 2 ≤ s.prevFree + 1 by omega) hnr
      hinit
    dsimp only
    rw [he]
    dsimp only
    rcases hres with ⟨rfl, hlen, rest, hinv⟩ | ⟨rfl, hlen, hcl, htable, hcount⟩
    · -- all clusters were found
      obtain ⟨herr, htable⟩ := syncAndMirror_tableIs hv hio needsSync hinv.bhs hinv.table
      rw [if_pos rfl, if_neg (not_not.mpr herr), herr, ← eq_take_of_append hinv.clusters hlen]
      exact ⟨_, _, _, rfl, allocSpec_of_success hv hio ⟨h2, hmax⟩ hnr hinv.clusters hlen htable
        hinv.count⟩
    · -- the free clusters were too few, and are freed again
      rw [hcl] at hlen ⊢
      have herr : -enospc ≠ 0 := by decide
      rw [if_neg herr, if_pos herr, List.take_of_length_le (by omega)]
      have hspec (s' : FatState) := @allocSpec_of_failure sb io s hv ⟨h2, hmax⟩ nr s' hlen
      generalize freeScan sb s = l at *
      cases l with
      | nil => exact ⟨_, _, _, rfl, hspec _ htable hcount⟩
      | cons c cs =>
        obtain ⟨s', hfreed, htable', hcount'⟩ :=
          fatFreeClusters_spec hv hio (s := st.fat) hfl htable
          (by omega)
        dsimp only
        rw [hfreed]
        refine ⟨_, _, _, rfl, hspec _ htable' ?_⟩
        rw [hcount', hcount, addFree, if_neg (by decide), Int.zero_add]

end

/-- Nothing fails. -/
def noErrors : FatIo := ⟨fun _ => true, fun _ => true, fun _ => 0, fun _ => 0⟩

theorem noErrors_ok : noErrors.Ok := ⟨fun _ => rfl, fun _ => rfl, fun _ => rfl, fun _ => rfl⟩

/-- A FAT12 table with two copies that ends in its second block. -/
def smallSb : FatSb := ⟨.fat12, 9, 1, 2, 2, 345, false⟩

/-- Only the two entries around the end of the first block are free. -/
def smallState : FatState where
  disk b o := if b = 1 ∧ o = 511 ∨ b = 2 ∧ o ≤ 2 then 0 else 0x11
  prevFree := 2
  freeClusters := -1
  freeClusValid := false

/-- Two clusters are linked across the end of a block. -/
theorem fat_alloc_clusters_across_blocks : ∃ cluster s',
    fatAllocClusters smallSb noErrors false smallState 2 = some (0, cluster, s') ∧
      IsFatChain (fun e => smallSb.fatBits.dec (smallSb.fatWord s'.disk e)) cluster := by
  have hvalid : smallSb.Valid := ⟨by decide, by decide, by decide⟩
  have hnum : numFree smallSb smallState.disk = 2 := by decide +kernel
  have hok : AllocOk smallSb smallState 2 := .inr (by decide +kernel)
  obtain ⟨err, cluster, s', he, hiff⟩ := fat_alloc_clusters_iff hvalid noErrors_ok
    (s := smallState) ⟨by decide, by decide⟩ (.inl rfl) (show 1 ≤ 2 by decide) (by decide) false
  have hspec := hiff.mpr hok
  have herr := hspec.err_eq (Nat.le_of_eq hnum.symm)
  rw [herr] at he hspec
  exact ⟨cluster, s', he, hspec.chain rfl⟩

/-- The largest FAT32 table. -/
def largeSb : FatSb := ⟨.fat32, 9, 1, 2097152, 1, 0x0ffffff8, false⟩

/-- Only the last two entries are free. -/
def largeState : FatState where
  disk b o := if b = 2097152 ∧ 472 ≤ o then 0 else 1
  prevFree := 0x0ffffff5
  freeClusters := -1
  freeClusValid := false

/-- The last two clusters are allocated, but the first of them reads as the end of the chain, and
freeing the chain leaves the second one allocated. -/
theorem fat32_chain_ends_before_bad : largeSb.Valid ∧
    ((fatAllocClusters largeSb noErrors false largeState 2).map fun r =>
      (r.1, r.2.1, largeSb.fatBits.dec (largeSb.fatWord r.2.2.disk 0x0ffffff6))) =
        some (0, [0x0ffffff6, 0x0ffffff7], fatEntEof) ∧
    ((fatAllocClusters largeSb noErrors false largeState 2).bind fun r =>
      (fatFreeClusters largeSb noErrors r.2.2 0x0ffffff6).map fun r =>
        (r.1, isFreeIn largeSb r.2.disk 0x0ffffff7)) = some (0, false) := by
  refine ⟨⟨by decide, by decide, by decide⟩, ?_, ?_⟩
  · decide +kernel
  · decide +kernel

end LinuxStm32.Fs.Fat
