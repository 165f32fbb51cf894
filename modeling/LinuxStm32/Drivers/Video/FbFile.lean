import LinuxStm32.Drivers.Video.Stm32f7Lcdfb

/-!
# Reading and writing the frame buffer as a file

`fb_read` and `fb_write`, `drivers/video/fbmem.c:693–850`, on the device that `fb_probe` sets up,
`drivers/video/stm32f7_lcdfb.c:207–264`. `screen_size` is 0, so the bound is `fix.smem_len`, the
size of the frame; the base is `screen_base`. The bytes that are accessed are recorded in the order
of the user's buffer.
-/

namespace LinuxStm32.Drivers.Video

open Base

/-! ### The loops -/

/-- The bytes of one chunk at `addr`: whole words, then the tail. -/
def chunkAddrs (addr c : Nat) : List Nat :=
  (List.range (c / 4)).flatMap (fun i => (List.range 4).map (addr + 4 * i + ·)) ++
    (List.range (c % 4)).map (addr + 4 * (c / 4) + ·)

/-- `(count > PAGE_SIZE) ? PAGE_SIZE : count`. -/
def chunkLen (count : Nat) : Nat := if 4096 < count then 4096 else count

/-- The loop of `fb_read`: the bytes copied to the user, whether no copy failed, and the addresses
that were read. `copies` says which `copy_to_user` succeed. -/
def fbReadLoop (mem : Nat → UInt8) (copies : Nat → Bool) :
    Nat → Nat → Nat → Nat → List UInt8 × Bool × List Nat
  | 0, _, _, _ => ([], true, [])
  | fuel + 1, chunk, src, count =>
    if count = 0 then ([], true, [])
    else
      let c := chunkLen count
      let addrs := chunkAddrs src c
      if copies chunk = false then ([], false, addrs)
      else
        let r := fbReadLoop mem copies fuel (chunk + 1) (src + c) (count - c)
        (addrs.map mem ++ r.1, r.2.1, addrs ++ r.2.2)

/-- The stores of the loop of `fb_write`. -/
def fbWriteStores (buf : Nat → UInt8) (copies : Nat → Bool) :
    Nat → Nat → Nat → Nat → Nat → List (Nat × UInt8)
  | 0, _, _, _, _ => []
  | fuel + 1, chunk, dst, cnt, count =>
    if count = 0 then []
    else if copies chunk = false then []
    else
      let c := chunkLen count
      (chunkAddrs dst c).zip ((List.range c).map fun k => buf (cnt + k)) ++
        fbWriteStores buf copies fuel (chunk + 1) (dst + c) (cnt + c) (count - c)

/-- The `n` addresses from `addr` on. -/
def span (addr n : Nat) : List Nat := (List.range n).map (addr + ·)

theorem span_add (addr n k : Nat) : span addr (n + k) = span addr n ++ span (addr + n) k := by
  simp [span, List.range_add, Nat.add_assoc]

theorem mem_span {addr n a : Nat} : a ∈ span addr n ↔ addr ≤ a ∧ a < addr + n := by
  unfold span
  rw [List.mem_map]
  constructor
  · rintro ⟨k, hk, rfl⟩
    have hlt := List.mem_range.mp hk
    omega
  · intro h
    exact ⟨a - addr, List.mem_range.mpr (by omega), by omega⟩

/-- Words and tail together are the bytes of the chunk, in order. -/
theorem chunkAddrs_eq (addr c : Nat) : chunkAddrs addr c = span addr c := by
  have hwords : ∀ q, (List.range q).flatMap (fun i => (List.range 4).map (addr + 4 * i + ·)) =
      span addr (4 * q) := by
    intro q
    induction q with
    | zero => rfl
    | succ q ih =>
      have hlast : List.range (q + 1) = List.range q ++ [q] := List.range_succ
      rw [hlast, List.flatMap_append, ih, Nat.mul_succ, span_add]
      simp only [List.flatMap_cons, List.flatMap_nil, List.append_nil]
      rfl
  rw [chunkAddrs, hwords]
  change span addr _ ++ span (addr + 4 * (c / 4)) (c % 4) = _
  rw [← span_add, Nat.div_add_mod]

theorem chunkLen_pos {count : Nat} (h : count ≠ 0) :
    0 < chunkLen count ∧ chunkLen count ≤ count := by
  unfold chunkLen
  split
  next => omega
  next => omega

/-- The bytes read are a range of at most `count`, those copied its beginning, and all of both when
no copy fails. -/
theorem fbReadLoop_spec (mem : Nat → UInt8) (copies : Nat → Bool) {fuel count : Nat}
    (chunk src : Nat) (hfuel : count ≤ fuel) :
    ∃ n d, d ≤ n ∧ n ≤ count ∧
      (fbReadLoop mem copies fuel chunk src count).2.2 = span src n ∧
      (fbReadLoop mem copies fuel chunk src count).1 = (span src d).map mem ∧
      ((∀ i, copies i = true) → d = count) := by
  induction fuel generalizing chunk src count with
  | zero =>
    exact ⟨0, 0, Nat.le_refl 0, Nat.zero_le count, rfl, rfl, fun _ => by omega⟩
  | succ fuel ih =>
    rw [fbReadLoop]
    split
    next h0 => exact ⟨0, 0, Nat.le_refl 0, Nat.zero_le count, rfl, rfl, fun _ => h0.symm⟩
    next h0 =>
      obtain ⟨hpos, hle⟩ := chunkLen_pos h0
      dsimp only
      rw [chunkAddrs_eq]
      split
      next hcopy =>
        refine ⟨chunkLen count, 0, Nat.zero_le _, hle, rfl, rfl, fun hall => ?_⟩
        rw [hall chunk] at hcopy
        cases hcopy
      next =>
        obtain ⟨n, d, hdn, hn, ht, hb, hall⟩ :=
          ih (chunk + 1) (src + chunkLen count) (show count - chunkLen count ≤ fuel by omega)
        refine ⟨chunkLen count + n, chunkLen count + d, by omega, by omega, ?_, ?_, ?_⟩
        · rw [ht, span_add]
        · rw [hb, span_add, List.map_append]
        · intro hc
          rw [hall hc]
          omega

/-- The stores go in order to a range of at most `count` bytes, all of it when no copy fails. -/
theorem fbWriteStores_spec (buf : Nat → UInt8) (copies : Nat → Bool) {fuel count : Nat}
    (chunk dst cnt : Nat) (hfuel : count ≤ fuel) :
    ∃ n ≤ count,
      fbWriteStores buf copies fuel chunk dst cnt count =
        (List.range n).map (fun k => (dst + k, buf (cnt + k))) ∧
      ((∀ i, copies i = true) → n = count) := by
  induction fuel generalizing chunk dst cnt count with
  | zero => exact ⟨0, Nat.zero_le count, rfl, fun _ => by omega⟩
  | succ fuel ih =>
    rw [fbWriteStores]
    split
    next h0 => exact ⟨0, Nat.zero_le count, rfl, fun _ => h0.symm⟩
    next h0 =>
      obtain ⟨hpos, hle⟩ := chunkLen_pos h0
      split
      next hcopy =>
        refine ⟨0, Nat.zero_le count, rfl, fun hall => ?_⟩
        rw [hall chunk] at hcopy
        cases hcopy
      next =>
        obtain ⟨n, hn, hs, hall⟩ := ih (chunk + 1) (dst + chunkLen count) (cnt + chunkLen count)
          (show count - chunkLen count ≤ fuel by omega)
        refine ⟨chunkLen count + n, by omega, ?_, ?_⟩
        · dsimp only
          rw [hs, chunkAddrs_eq, span, List.zip_map', List.range_add, List.map_append,
            List.map_map]
          simp only [Function.comp_def, Nat.add_assoc]
        · intro hc
          rw [hall hc]
          omega

/-! ### The calls -/

/-- A call of `fb_read` and what `kmalloc` and `copy_to_user` answer. -/
structure FbRead where
  ppos : Nat
  count : Nat
  kmallocOk : Bool
  copies : Nat → Bool

/-- The position as an `unsigned long`. -/
def FbRead.p (r : FbRead) : Nat := r.ppos % 4294967296

/-- The count after it was cut to the size of the frame. -/
def FbRead.clipped (r : FbRead) : Nat :=
  let count := if lcdFrameSize ≤ r.count then lcdFrameSize else r.count
  if lcdFrameSize < count + r.p then lcdFrameSize - r.p else count

namespace FbInfo

variable (s : FbInfo)

/-- `fb_read`, `drivers/video/fbmem.c:693`: the result, the bytes copied to the user, the addresses
that were read and the device after the call. -/
def fbRead (r : FbRead) : Int × List UInt8 × List Nat × FbInfo :=
  if s.running = false then (-1, [], [], s)
  else if lcdFrameSize ≤ r.p then (0, [], [], s)
  else if r.kmallocOk = false then (-12, [], [], s)
  else
    let s := s.fbSync
    let l := fbReadLoop s.mem.cpu r.copies r.clipped 0 (s.screenBase + r.p) r.clipped
    (if l.2.1 then l.1.length else -14, l.1, l.2.2, s)

/-- The stores of a call of `fb_write`. -/
def stores (w : FbWrite) : List (Nat × UInt8) :=
  if s.running = false ∨ lcdFrameSize < w.p ∨ w.kmallocOk = false then []
  else fbWriteStores w.buf w.copies w.clipped 0 (s.screenBase + w.p) 0 w.clipped

theorem fbWriteLoop_mem (buf : Nat → UInt8) (copies : Nat → Bool) {fuel count : Nat}
    (chunk dst cnt : Nat) (m : FbMem) :
    (fbWriteLoop buf copies fuel chunk dst cnt count m).2.2 =
      m.writes (fbWriteStores buf copies fuel chunk dst cnt count) := by
  induction fuel generalizing chunk dst cnt count m with
  | zero => rfl
  | succ fuel ih =>
    rw [fbWriteLoop, fbWriteStores]
    split
    next => rfl
    next =>
      split
      next => rfl
      next =>
        dsimp only
        rw [ih, chunkAddrs_eq, span, List.zip_map']
        exact (List.foldl_append).symm

/-- The recorded stores are what `fb_write` does to memory. -/
theorem fbWrite_mem (w : FbWrite) (hrun : s.running = true) (hp : w.p ≤ lcdFrameSize)
    (hk : w.kmallocOk = true) : (s.fbWrite w).2.mem = s.fbSync.mem.writes (s.stores w) := by
  have hstores : s.stores w =
      fbWriteStores w.buf w.copies w.clipped 0 (s.screenBase + w.p) 0 w.clipped := by
    rw [stores, if_neg]
    rintro (h | h | h)
    · rw [hrun] at h
      cases h
    · omega
    · rw [hk] at h
      cases h
  rw [fbWrite, hstores, if_neg (by rw [hrun]; decide), if_neg (by omega),
    if_neg (by rw [hk]; decide)]
  exact fbWriteLoop_mem w.buf w.copies 0 _ 0 _

/-! ### Inside the frame, at the offset -/

/-- Only bytes of the frame are read. -/
def ReadInFrame (r : FbRead) : Prop := ∀ a ∈ (s.fbRead r).2.2.1, s.InFrame a

/-- Byte `k` that is returned is the one at offset `ppos + k` of `smem_start`. -/
def ReadAtOffset (r : FbRead) : Prop :=
  ∀ k v, (s.fbRead r).2.1[k]? = some v →
    (s.fbRead r).2.2.1[k]? = some (s.smemStart + r.ppos + k) ∧
      v = s.mem.cpu (s.smemStart + r.ppos + k)

/-- Only bytes of the frame are stored to. -/
def WriteInFrame (w : FbWrite) : Prop := ∀ x ∈ s.stores w, s.InFrame x.1

/-- Byte `k` of the buffer is stored at offset `ppos + k` of `smem_start`. -/
def WriteAtOffset (w : FbWrite) : Prop :=
  ∀ k x, (s.stores w)[k]? = some x → x = (s.smemStart + w.ppos + k, w.buf k)

/-- The call has nothing to transfer. -/
def Idle (ppos count : Nat) : Prop :=
  s.running = false ∨ count = 0 ∨ lcdFrameSize ≤ ppos % 4294967296

/-- The transfer ends before the frame does, counted from `screen_base`. -/
def EndsInFrame (ppos count : Nat) : Prop :=
  s.Idle ppos count ∨ ppos % 4294967296 + count + viewportOffset ≤ lcdFrameSize

/-- A call that moves `n` bytes: none if it is idle, never more than asked for or than the frame
has behind the position, and all of these if nothing fails. -/
structure Moves (ppos count : Nat) (noFail : Prop) (n : Nat) : Prop where
  le : n ≤ min count (lcdFrameSize - ppos % 4294967296)
  idle : s.Idle ppos count → n = 0
  all : ¬ s.Idle ppos count → noFail → n = min count (lcdFrameSize - ppos % 4294967296)

theorem moves_zero {ppos count : Nat} {noFail : Prop} (h : s.Idle ppos count ∨ ¬ noFail) :
    s.Moves ppos count noFail 0 where
  le := Nat.zero_le _
  idle _ := rfl
  all hbusy hno := by
    rcases h with h | h
    · exact absurd h hbusy
    · exact absurd hno h

/-- Both functions cut the count to what the frame has behind the position. -/
theorem clip_eq {count p : Nat} (hp : p ≤ lcdFrameSize) :
    (if lcdFrameSize < min count lcdFrameSize + p then lcdFrameSize - p
      else min count lcdFrameSize) = min count (lcdFrameSize - p) := by
  split
  next => omega
  next => omega

theorem clipped_read (r : FbRead) (hp : r.p ≤ lcdFrameSize) :
    r.clipped = min r.count (lcdFrameSize - r.p) := by
  have hcut : (if lcdFrameSize ≤ r.count then lcdFrameSize else r.count) =
      min r.count lcdFrameSize := by
    split
    next => omega
    next => omega
  rw [← clip_eq hp, FbRead.clipped, hcut]

theorem clipped_write (w : FbWrite) (hp : w.p ≤ lcdFrameSize) :
    w.clipped = min w.count (lcdFrameSize - w.p) := by
  have hcut : (if lcdFrameSize < w.count then lcdFrameSize else w.count) =
      min w.count lcdFrameSize := by
    split
    next => omega
    next => omega
  rw [← clip_eq hp, FbWrite.clipped, hcut]

/-- A loop that moves at most the cut count, and all of it if nothing fails. -/
theorem moves_of_clipped {ppos count n : Nat} {noFail : Prop}
    (hle : n ≤ min count (lcdFrameSize - ppos % 4294967296))
    (hall : noFail → n = min count (lcdFrameSize - ppos % 4294967296))
    (hrun : s.running ≠ false) : s.Moves ppos count noFail n where
  le := hle
  idle h := by
    rcases h with h | h | h
    · exact absurd h hrun
    · omega
    · omega
  all _ := hall

/-- A read accesses a range from `screen_base` on and returns its beginning. -/
theorem fbRead_spec (r : FbRead) :
    ∃ n d, d ≤ n ∧ (s.fbRead r).2.2.1 = span (s.screenBase + r.p) n ∧
      (s.fbRead r).2.1 = (span (s.screenBase + r.p) d).map s.mem.cpu ∧
      s.Moves r.ppos r.count (r.kmallocOk = true ∧ ∀ i, r.copies i = true) n ∧
      s.Moves r.ppos r.count (r.kmallocOk = true ∧ ∀ i, r.copies i = true) d := by
  have hz := @moves_zero s r.ppos r.count (r.kmallocOk = true ∧ ∀ i, r.copies i = true)
  rw [fbRead]
  split
  next hrun =>
    have hidle := hz (.inl (.inl hrun))
    exact ⟨0, 0, Nat.le_refl 0, rfl, rfl, hidle, hidle⟩
  next hrun =>
    split
    next hp =>
      have hidle := hz (.inl (.inr (.inr hp)))
      exact ⟨0, 0, Nat.le_refl 0, rfl, rfl, hidle, hidle⟩
    next hp =>
      split
      next hk =>
        have hfail := hz (.inr fun h => by rw [hk] at h; cases h.1)
        exact ⟨0, 0, Nat.le_refl 0, rfl, rfl, hfail, hfail⟩
      next hk =>
        obtain ⟨n, d, hdn, hn, ht, hb, hall⟩ := fbReadLoop_spec s.fbSync.mem.cpu r.copies 0
          (s.fbSync.screenBase + r.p) (Nat.le_refl r.clipped)
        rw [clipped_read r (by omega)] at hn hall
        refine ⟨n, d, hdn, ht, hb, ?_, ?_⟩
        · apply s.moves_of_clipped hn _ hrun
          intro h
          have hd := hall h.2
          unfold FbRead.p at *
          omega
        · apply s.moves_of_clipped (Nat.le_trans hdn hn) _ hrun
          intro h
          exact hall h.2

/-- A write stores to a range from `screen_base` on. -/
theorem stores_spec (w : FbWrite) :
    ∃ n, s.stores w = (List.range n).map (fun k => (s.screenBase + w.p + k, w.buf k)) ∧
      s.Moves w.ppos w.count (w.kmallocOk = true ∧ ∀ i, w.copies i = true) n := by
  rw [stores]
  split
  next h =>
    refine ⟨0, rfl, s.moves_zero ?_⟩
    rcases h with h | h | h
    · exact .inl (.inl h)
    · exact .inl (.inr (.inr (Nat.le_of_lt h)))
    · right
      intro hno
      rw [h] at hno
      cases hno.1
  next h =>
    obtain ⟨hrun, hp, -⟩ := not_or.mp h |>.imp id not_or.mp
    obtain ⟨n, hn, hs, hall⟩ := fbWriteStores_spec w.buf w.copies 0 (s.screenBase + w.p) 0
      (Nat.le_refl w.clipped)
    rw [clipped_write w (by omega)] at hn hall
    refine ⟨n, ?_, s.moves_of_clipped hn (fun h => hall h.2) hrun⟩
    simpa only [Nat.zero_add] using hs

section Bytes

variable {s} {ppos count n : Nat} {noFail : Prop}

/-- A transfer that ends before the frame does stays in it. -/
theorem Moves.inFrame (h : s.Moves ppos count noFail n) (hend : s.EndsInFrame ppos count) {k : Nat}
    (hk : k < n) : s.InFrame (s.screenBase + ppos % 4294967296 + k) := by
  have hle := h.le
  rcases hend with hidle | hend
  · rw [h.idle hidle] at hk
    cases hk
  · unfold InFrame screenBase
    omega

/-- A full transfer that stays in the frame ends before it does. -/
theorem Moves.endsInFrame (h : s.Moves ppos count noFail n) (hno : noFail)
    (hin : ∀ k < n, s.InFrame (s.screenBase + ppos % 4294967296 + k)) :
    s.EndsInFrame ppos count := by
  by_cases hidle : s.Idle ppos count
  · exact .inl hidle
  · have hall := h.all hidle hno
    obtain ⟨-, hcount, hp⟩ := not_or.mp hidle |>.imp id not_or.mp
    have hlast := hin (n - 1) (by omega)
    have hoff : viewportOffset = 7696 := rfl
    right
    unfold InFrame screenBase at hlast
    omega

/-- A full transfer whose first byte is at the offset from `smem_start` moves nothing: the
viewport begins elsewhere. -/
theorem Moves.idle_of_offset (h : s.Moves ppos count noFail n) (hno : noFail)
    (hoff : 0 < n → s.screenBase + ppos % 4294967296 = s.smemStart + ppos) : s.Idle ppos count := by
  by_contra hidle
  have hall := h.all hidle hno
  obtain ⟨-, hcount, hp⟩ := not_or.mp hidle |>.imp id not_or.mp
  have hfirst := hoff (by omega)
  have hview : viewportOffset = 7696 := rfl
  unfold screenBase at hfirst
  omega

end Bytes

theorem readInFrame_iff (ppos count : Nat) :
    (∀ r : FbRead, r.ppos = ppos → r.count = count → s.ReadInFrame r) ↔
      s.EndsInFrame ppos count := by
  constructor
  · intro h
    have hr := h ⟨ppos, count, true, fun _ => true⟩ rfl rfl
    obtain ⟨n, d, -, ht, -, hn, -⟩ := s.fbRead_spec ⟨ppos, count, true, fun _ => true⟩
    apply hn.endsInFrame ⟨rfl, fun _ => rfl⟩
    intro k hk
    apply hr
    rw [ht, mem_span]
    unfold FbRead.p
    omega
  · rintro hend r rfl rfl a ha
    obtain ⟨n, d, -, ht, -, hn, -⟩ := s.fbRead_spec r
    rw [ht, mem_span] at ha
    have hin := hn.inFrame hend (k := a - (s.screenBase + r.p)) (by omega)
    unfold FbRead.p at *
    rwa [Nat.add_sub_cancel' ha.1] at hin

theorem writeInFrame_iff (ppos count : Nat) :
    (∀ w : FbWrite, w.ppos = ppos → w.count = count → s.WriteInFrame w) ↔
      s.EndsInFrame ppos count := by
  constructor
  · intro h
    have hw := h ⟨ppos, count, fun _ => 0, true, fun _ => true⟩ rfl rfl
    obtain ⟨n, hs, hn⟩ := s.stores_spec ⟨ppos, count, fun _ => 0, true, fun _ => true⟩
    apply hn.endsInFrame ⟨rfl, fun _ => rfl⟩
    intro k hk
    apply hw (s.screenBase + ppos % 4294967296 + k, 0)
    rw [hs]
    exact List.mem_map.mpr ⟨k, List.mem_range.mpr hk, rfl⟩
  · rintro hend w rfl rfl x hx
    obtain ⟨n, hs, hn⟩ := s.stores_spec w
    rw [hs] at hx
    obtain ⟨k, hk, rfl⟩ := List.mem_map.mp hx
    exact hn.inFrame hend (List.mem_range.mp hk)

theorem readAtOffset_iff (ppos count : Nat) :
    (∀ r : FbRead, r.ppos = ppos → r.count = count → s.ReadAtOffset r) ↔ s.Idle ppos count := by
  constructor
  · intro h
    have hr := h ⟨ppos, count, true, fun _ => true⟩ rfl rfl
    obtain ⟨n, d, hdn, ht, hb, -, hd⟩ := s.fbRead_spec ⟨ppos, count, true, fun _ => true⟩
    apply hd.idle_of_offset ⟨rfl, fun _ => rfl⟩
    intro hpos
    have hfirst := (hr 0 (s.mem.cpu (s.screenBase + ppos % 4294967296)) ?_).1
    · rw [ht] at hfirst
      simpa [span, FbRead.p, Nat.lt_of_lt_of_le hpos hdn] using hfirst
    · rw [hb]
      simp [span, FbRead.p, hpos]
  · rintro hidle r rfl rfl k v hv
    obtain ⟨n, d, hdn, -, hb, hn, -⟩ := s.fbRead_spec r
    have hzero := hn.idle hidle
    rw [hb, show d = 0 by omega] at hv
    cases hv

theorem writeAtOffset_iff (ppos count : Nat) :
    (∀ w : FbWrite, w.ppos = ppos → w.count = count → s.WriteAtOffset w) ↔ s.Idle ppos count := by
  constructor
  · intro h
    have hw := h ⟨ppos, count, fun _ => 0, true, fun _ => true⟩ rfl rfl
    obtain ⟨n, hs, hn⟩ := s.stores_spec ⟨ppos, count, fun _ => 0, true, fun _ => true⟩
    apply hn.idle_of_offset ⟨rfl, fun _ => rfl⟩
    intro hpos
    have hfirst := hw 0 (s.screenBase + ppos % 4294967296, 0) (by
      rw [hs]
      simp [FbWrite.p, hpos])
    exact congrArg Prod.fst hfirst
  · rintro hidle w rfl rfl k x hx
    obtain ⟨n, hs, hn⟩ := s.stores_spec w
    rw [hs, hn.idle hidle] at hx
    cases hx

end FbInfo

open FbInfo

/-- A read or write at an offset is right, whatever `kmalloc` and the copies answer, exactly if it
has nothing to transfer; it stays in the frame exactly if it also ends before the frame does,
counted from `screen_base`. -/
theorem fb_file_access (s : FbInfo) (ppos count : Nat) :
    ((∀ r : FbRead, r.ppos = ppos → r.count = count → s.ReadInFrame r ∧ s.ReadAtOffset r) ↔
        s.Idle ppos count) ∧
      ((∀ w : FbWrite, w.ppos = ppos → w.count = count → s.WriteInFrame w ∧ s.WriteAtOffset w) ↔
        s.Idle ppos count) ∧
      ((∀ r : FbRead, r.ppos = ppos → r.count = count → s.ReadInFrame r) ↔
        s.EndsInFrame ppos count) ∧
      ((∀ w : FbWrite, w.ppos = ppos → w.count = count → s.WriteInFrame w) ↔
        s.EndsInFrame ppos count) := by
  refine ⟨⟨fun h => ?_, fun h => ?_⟩, ⟨fun h => ?_, fun h => ?_⟩, s.readInFrame_iff ppos count,
    s.writeInFrame_iff ppos count⟩
  · exact (s.readAtOffset_iff ppos count).mp fun r hp hc => (h r hp hc).2
  · intro r hp hc
    exact ⟨(s.readInFrame_iff ppos count).mpr (.inl h) r hp hc,
      (s.readAtOffset_iff ppos count).mpr h r hp hc⟩
  · exact (s.writeAtOffset_iff ppos count).mp fun w hp hc => (h w hp hc).2
  · intro w hp hc
    exact ⟨(s.writeInFrame_iff ppos count).mpr (.inl h) w hp hc,
      (s.writeAtOffset_iff ppos count).mpr h w hp hc⟩

/-- A frame buffer at `0xC0100000`, before anything is drawn. -/
def fb0 : FbInfo := fbProbe 0xC0100000 ⟨fun _ => 0, fun _ => 0, fun _ => false⟩

/-- A write of one byte near the end of the frame is stored behind it. -/
theorem fb_write_behind_frame :
    fb0.stores ⟨253424, 1, fun _ => 0xff, true, fun _ => true⟩ =
        [(fb0.smemStart + lcdFrameSize, 0xff)] ∧
      ¬ fb0.WriteInFrame ⟨253424, 1, fun _ => 0xff, true, fun _ => true⟩ := by
  have hs : fb0.stores ⟨253424, 1, fun _ => 0xff, true, fun _ => true⟩ =
      [(fb0.smemStart + lcdFrameSize, 0xff)] := by decide +kernel
  apply And.intro hs
  intro h
  have hin := h (fb0.smemStart + lcdFrameSize, 0xff) (by rw [hs]; exact List.mem_singleton_self _)
  exact absurd hin.2 (Nat.lt_irrefl _)

end LinuxStm32.Drivers.Video
