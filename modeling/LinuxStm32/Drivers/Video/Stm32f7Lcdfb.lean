import LinuxStm32.Base.System
import Mathlib.Data.List.Basic

/-!
# The frame buffer and the data cache

`drivers/video/stm32f7_lcdfb.c:92–137,207–264` and `fb_write`, `drivers/video/fbmem.c:768–850`. The
data cache is write-back: a byte the processor stores is dirty, and the LTDC, which reads memory,
sees it only once `dmac_clean_range` has covered it. The generic drawing functions are taken at
their interface: after a call of `fb_sync` they store into the lines of their rectangle whatever
they draw, and nothing if the device is not running.
-/

namespace LinuxStm32.Drivers.Video

open Base

/-- Memory as the processor and as the LTDC see it, and the dirty bytes of the cache. -/
structure FbMem where
  cpu : Nat → UInt8
  ram : Nat → UInt8
  dirty : Nat → Bool

namespace FbMem

/-- A store of one byte. -/
def write (m : FbMem) (addr : Nat) (v : UInt8) : FbMem :=
  { m with
    cpu := fun a => if a = addr then v else m.cpu a
    dirty := fun a => a == addr || m.dirty a }

/-- `dmac_clean_range` on `[start, stop)`. -/
def dmacCleanRange (m : FbMem) (start stop : Nat) : FbMem :=
  { m with
    ram := fun a => if start ≤ a ∧ a < stop ∧ m.dirty a then m.cpu a else m.ram a
    dirty := fun a => m.dirty a && !decide (start ≤ a ∧ a < stop) }

/-- Stores in order. -/
def writes (m : FbMem) (l : List (Nat × UInt8)) : FbMem := l.foldl (fun m w => m.write w.1 w.2) m

end FbMem

/-- `LCD_LINE_LEN`. -/
def lcdLineLen : Nat := 960

/-- `LCD_FRAME_SIZE`. -/
def lcdFrameSize : Nat := lcdLineLen * 272

/-- Where the console viewport begins in the frame: eight lines and eight pixels. -/
def viewportOffset : Nat := 8 * lcdLineLen + 8 * 2

/-- `CONSOLE_HEIGHT`. -/
def consoleHeight : Nat := 256

/-- The parts of `struct fb_info` in use, with the memory. -/
structure FbInfo where
  smemStart : Nat
  running : Bool
  mem : FbMem

namespace FbInfo

variable (s : FbInfo)

/-- `screen_base`. -/
def screenBase : Nat := s.smemStart + viewportOffset

/-- `fb_sync`, `drivers/video/stm32f7_lcdfb.c:92`. It reads `fb_fix.smem_start` again at each call;
`fb_fix` is `__initdata`, and here its value is that of `fb_probe` also when its memory is freed. -/
def fbSync : FbInfo :=
  { s with mem := s.mem.dmacCleanRange s.smemStart (s.smemStart + lcdFrameSize) }

/-- `cfb_fillrect`, `cfb_copyarea` or `cfb_imageblit`, which store `draws`. -/
def cfbDraw (draws : List (Nat × UInt8)) : FbInfo :=
  if s.running then
    let s := s.fbSync
    { s with mem := s.mem.writes draws }
  else s

/-- `stm32f7_fb_fillrect`, `stm32f7_fb_copyarea` and `stm32f7_fb_imageblit`,
`drivers/video/stm32f7_lcdfb.c:100–128`: they draw and clean the lines of the rectangle. -/
def fbDraw (dy height : Nat) (draws : List (Nat × UInt8)) : FbInfo :=
  let s := s.cfbDraw draws
  if height ≠ 0 then
    let start := s.screenBase + dy * lcdLineLen
    { s with mem := s.mem.dmacCleanRange start (start + height * lcdLineLen) }
  else s

/-- The loop of `fb_write`, a chunk of at most a page at a time. `copies` says which
`copy_from_user` succeed. The result has the bytes stored and whether no copy failed. -/
def fbWriteLoop (buf : Nat → UInt8) (copies : Nat → Bool) :
    Nat → Nat → Nat → Nat → Nat → FbMem → Nat × Bool × FbMem
  | 0, _, _, cnt, _, m => (cnt, true, m)
  | fuel + 1, chunk, dst, cnt, count, m =>
    if count = 0 then (cnt, true, m)
    else if copies chunk = false then (cnt, false, m)
    else
      let c := if 4096 < count then 4096 else count
      let m := m.writes ((List.range c).map fun k => (dst + k, buf (cnt + k)))
      fbWriteLoop buf copies fuel (chunk + 1) (dst + c) (cnt + c) (count - c) m

end FbInfo

/-- A call of `fb_write`: the position, the user's buffer and what `kmalloc` and `copy_from_user`
answer. -/
structure FbWrite where
  ppos : Nat
  count : Nat
  buf : Nat → UInt8
  kmallocOk : Bool
  copies : Nat → Bool

namespace FbWrite

variable (w : FbWrite)

/-- The position as an `unsigned long`. -/
def p : Nat := w.ppos % 4294967296

/-- The count after it was cut to the size of the frame. -/
def clipped : Nat :=
  let count := if lcdFrameSize < w.count then lcdFrameSize else w.count
  if lcdFrameSize < count + w.p then lcdFrameSize - w.p else count

/-- The error that is returned if no byte is stored. -/
def clipError : Int :=
  if lcdFrameSize < w.count then -27
  else if lcdFrameSize < w.count + w.p then -28
  else 0

end FbWrite

/-- The rectangle a drawing function works on. -/
structure FbRect where
  dx : Nat
  dy : Nat
  width : Nat
  height : Nat

namespace FbInfo

variable (s : FbInfo)

/-- `fb_write`, `drivers/video/fbmem.c:768`; `screen_size` is 0, so the size is that of the
frame. -/
def fbWrite (w : FbWrite) : Int × FbInfo :=
  if s.running = false then (-1, s)
  else if lcdFrameSize < w.p then (-27, s)
  else if w.kmallocOk = false then (-12, s)
  else
    let s := s.fbSync
    let r := fbWriteLoop w.buf w.copies w.clipped 0 (s.screenBase + w.p) 0 w.clipped s.mem
    let err := if r.2.1 then w.clipError else -14
    (if r.1 ≠ 0 then r.1 else err, { s with mem := r.2.2 })

/-- `stm32f7_fb_fillrect`, `drivers/video/stm32f7_lcdfb.c:100`. -/
def stm32f7FbFillrect (rect : FbRect) (draws : List (Nat × UInt8)) : FbInfo :=
  s.fbDraw rect.dy rect.height draws

/-- `stm32f7_fb_copyarea`, `drivers/video/stm32f7_lcdfb.c:110`. -/
def stm32f7FbCopyarea (area : FbRect) (draws : List (Nat × UInt8)) : FbInfo :=
  s.fbDraw area.dy area.height draws

/-- `stm32f7_fb_imageblit`, `drivers/video/stm32f7_lcdfb.c:120`. -/
def stm32f7FbImageblit (image : FbRect) (draws : List (Nat × UInt8)) : FbInfo :=
  s.fbDraw image.dy image.height draws

/-- The rectangle is inside the viewport, and what is drawn is inside its lines. -/
def drawable (rect : FbRect) (draws : List (Nat × UInt8)) : Bool :=
  rect.dx + rect.width ≤ 464 && rect.dy + rect.height ≤ consoleHeight &&
    draws.all fun w => s.screenBase + rect.dy * lcdLineLen ≤ w.1 &&
      w.1 < s.screenBase + rect.dy * lcdLineLen + rect.height * lcdLineLen

/-- The `memset` of `fb_probe`. -/
def blackFrame (smemStart : Nat) : List (Nat × UInt8) :=
  (List.range lcdFrameSize).map fun k => (smemStart + k, 0)

/-- `fb_probe`, `drivers/video/stm32f7_lcdfb.c:207`: the frame is aligned, cleared and cleaned. -/
def fbProbe (fbBase : Nat) (mem : FbMem) : FbInfo :=
  let smemStart := fbBase + 256 - fbBase % 256
  fbSync ⟨smemStart, true, mem.writes (blackFrame smemStart)⟩

end FbInfo

/-- The calls that store into the frame. -/
inductive FbCall
  | write (w : FbWrite)
  | fillrect (rect : FbRect) (draws : List (Nat × UInt8))
  | copyarea (area : FbRect) (draws : List (Nat × UInt8))
  | imageblit (image : FbRect) (draws : List (Nat × UInt8))

/-- One call; rectangles are inside the viewport. -/
def fbStep (s : FbInfo) : FbCall → Option FbInfo
  | .write w => some (s.fbWrite w).2
  | .fillrect rect draws =>
    if s.drawable rect draws then some (s.stm32f7FbFillrect rect draws) else none
  | .copyarea area draws =>
    if s.drawable area draws then some (s.stm32f7FbCopyarea area draws) else none
  | .imageblit image draws =>
    if s.drawable image draws then some (s.stm32f7FbImageblit image draws) else none

namespace FbMem

variable {m : FbMem}

/-- What is not dirty is in memory. -/
def Coherent (m : FbMem) : Prop := ∀ a, m.dirty a = false → m.ram a = m.cpu a

theorem write_dirty {addr a : Nat} {v : UInt8} :
    (m.write addr v).dirty a = true ↔ a = addr ∨ m.dirty a = true := by
  simp only [write, Bool.or_eq_true, beq_iff_eq]

theorem Coherent.write (h : m.Coherent) (addr : Nat) (v : UInt8) : (m.write addr v).Coherent := by
  intro a ha
  have hnot : ¬ (a = addr ∨ m.dirty a = true) := by
    rw [← write_dirty (v := v), ha]
    exact Bool.false_ne_true
  obtain ⟨hne, hd⟩ := not_or.mp hnot
  show m.ram a = if a = addr then v else m.cpu a
  rw [if_neg hne]
  exact h a (Bool.eq_false_iff.mpr hd)

theorem writes_dirty {l : List (Nat × UInt8)} {a : Nat} :
    (m.writes l).dirty a = true ↔ (∃ w ∈ l, w.1 = a) ∨ m.dirty a = true := by
  induction l generalizing m with
  | nil => simp [writes]
  | cons w l ih =>
    have hcons : m.writes (w :: l) = (m.write w.1 w.2).writes l := rfl
    rw [hcons, ih, write_dirty, List.exists_mem_cons_iff, or_assoc, eq_comm (a := a)]
    exact or_left_comm

theorem Coherent.writes (h : m.Coherent) (l : List (Nat × UInt8)) : (m.writes l).Coherent := by
  induction l generalizing m with
  | nil => exact h
  | cons w l ih => exact ih (h.write w.1 w.2)

theorem clean_dirty {start stop a : Nat} :
    (m.dmacCleanRange start stop).dirty a = true ↔ m.dirty a = true ∧ ¬ (start ≤ a ∧ a < stop) := by
  simp only [dmacCleanRange, Bool.and_eq_true, Bool.not_eq_true', decide_eq_false_iff_not]

theorem Coherent.clean (h : m.Coherent) (start stop : Nat) :
    (m.dmacCleanRange start stop).Coherent := by
  intro a ha
  show (if start ≤ a ∧ a < stop ∧ m.dirty a = true then m.cpu a else m.ram a) = m.cpu a
  split
  next => rfl
  next hnot =>
    apply h a
    rw [← Bool.not_eq_true]
    intro hd
    have hin : ¬ (start ≤ a ∧ a < stop) := fun hin => hnot ⟨hin.1, hin.2, hd⟩
    have hdirty := clean_dirty.mpr ⟨hd, hin⟩
    rw [ha] at hdirty
    cases hdirty

end FbMem

/-! ### What the calls do -/

/-- The loop stores the bytes of a range from `dst` on, none if there is nothing to store or the
first copy fails. -/
theorem fbWriteLoop_spec (buf : Nat → UInt8) (copies : Nat → Bool)
    {fuel count : Nat} (chunk dst cnt : Nat) {m : FbMem} (hm : m.Coherent) (hfuel : count ≤ fuel) :
    ∃ n, (FbInfo.fbWriteLoop buf copies fuel chunk dst cnt count m).1 = cnt + n ∧
      (n = 0 ↔ count = 0 ∨ copies chunk = false) ∧
      (FbInfo.fbWriteLoop buf copies fuel chunk dst cnt count m).2.2.Coherent ∧
      ∀ a, (FbInfo.fbWriteLoop buf copies fuel chunk dst cnt count m).2.2.dirty a = true ↔
        (dst ≤ a ∧ a < dst + n) ∨ m.dirty a = true := by
  induction fuel generalizing chunk dst cnt count m with
  | zero =>
    refine ⟨0, rfl, ⟨fun _ => .inl (by omega), fun _ => rfl⟩, hm, fun a => ⟨.inr, ?_⟩⟩
    rintro (h | h)
    · omega
    · exact h
  | succ fuel ih =>
    rw [FbInfo.fbWriteLoop]
    split
    next h0 =>
      refine ⟨0, rfl, ⟨fun _ => .inl h0, fun _ => rfl⟩, hm, fun a => ⟨.inr, ?_⟩⟩
      rintro (h | h)
      · omega
      · exact h
    next h0 =>
      split
      next hcopy =>
        refine ⟨0, rfl, ⟨fun _ => .inr hcopy, fun _ => rfl⟩, hm, fun a => ⟨.inr, ?_⟩⟩
        rintro (h | h)
        · omega
        · exact h
      next hcopy =>
        dsimp only
        generalize hc : (if 4096 < count then 4096 else count) = c
        have hpos : 0 < c := by
          rw [← hc]
          split <;> omega
        generalize hl : (List.range c).map (fun k => (dst + k, buf (cnt + k))) = l
        have hmem : ∀ a, (∃ w ∈ l, w.1 = a) ↔ dst ≤ a ∧ a < dst + c := by
          intro a
          rw [← hl]
          constructor
          · rintro ⟨w, hw, rfl⟩
            obtain ⟨k, hk, rfl⟩ := List.mem_map.mp hw
            have hlt := List.mem_range.mp hk
            dsimp only
            omega
          · rintro ⟨hle, hlt⟩
            refine ⟨(dst + (a - dst), buf (cnt + (a - dst))),
              List.mem_map.mpr ⟨a - dst, ?_, rfl⟩, ?_⟩
            · exact List.mem_range.mpr (by omega)
            · exact Nat.add_sub_cancel' hle
        have hleft : count - c ≤ fuel := by omega
        obtain ⟨n, hcnt, _, hcoh, hdirty⟩ := ih (chunk + 1) (dst + c) (cnt + c) (hm.writes l) hleft
        refine ⟨c + n, by rw [hcnt, Nat.add_assoc], ⟨fun h => by omega, ?_⟩, hcoh, fun a => ?_⟩
        · rintro (h | h)
          · exact absurd h h0
          · exact absurd h hcopy
        · rw [hdirty, FbMem.writes_dirty, hmem, ← or_assoc]
          apply or_congr_left
          omega

/-- An address of the frame. -/
def FbInfo.InFrame (s : FbInfo) (a : Nat) : Prop :=
  s.smemStart ≤ a ∧ a < s.smemStart + lcdFrameSize

/-- No byte of the frame is dirty, and the LTDC sees what was stored. -/
def FbInfo.Shown (s : FbInfo) : Prop :=
  ∀ a, s.InFrame a → s.mem.dirty a = false ∧ s.mem.ram a = s.mem.cpu a

/-- The write stores no byte of the frame. -/
def WriteOk (s : FbInfo) (w : FbWrite) : Prop :=
  s.running = false ∨ lcdFrameSize < w.p ∨ w.kmallocOk = false ∨ w.clipped = 0 ∨
    w.copies 0 = false ∨ lcdFrameSize ≤ viewportOffset + w.p

/-- The condition on a call. -/
def FbOk (s : FbInfo) : FbCall → Prop
  | .write w => WriteOk s w
  | _ => True

/-- Clean bytes are in memory, and the frame is clean. -/
structure FbInv (s : FbInfo) : Prop where
  coherent : s.mem.Coherent
  clean : ∀ a, s.InFrame a → s.mem.dirty a = false

variable {s s' : FbInfo}

theorem FbInv.shown (h : FbInv s) : s.Shown :=
  fun a ha => ⟨h.clean a ha, h.coherent a (h.clean a ha)⟩

theorem fbSync_inv (h : s.mem.Coherent) : FbInv s.fbSync := by
  refine ⟨h.clean _ _, fun a ha => ?_⟩
  rw [← Bool.not_eq_true]
  intro hd
  exact (FbMem.clean_dirty.mp hd).2 ha

/-- Drawing leaves the frame clean. -/
theorem fbDraw_inv (h : FbInv s) {rect : FbRect} {draws : List (Nat × UInt8)}
    (hd : s.drawable rect draws = true) : FbInv (s.fbDraw rect.dy rect.height draws) := by
  simp only [FbInfo.drawable, Bool.and_eq_true, decide_eq_true_eq, List.all_eq_true] at hd
  obtain ⟨⟨_, hdy⟩, hin⟩ := hd
  have hcfb : (s.cfbDraw draws).mem.Coherent ∧ (s.cfbDraw draws).smemStart = s.smemStart ∧
      ∀ a, s.InFrame a → (s.cfbDraw draws).mem.dirty a = true → ∃ w ∈ draws, w.1 = a := by
    rw [FbInfo.cfbDraw]
    split
    next =>
      have hsync := fbSync_inv h.coherent
      refine ⟨hsync.coherent.writes draws, rfl, fun a ha hda => ?_⟩
      rcases FbMem.writes_dirty.mp hda with hw | hold
      · exact hw
      · have hclean : s.fbSync.mem.dirty a = false := hsync.clean a ha
        rw [hclean] at hold
        cases hold
    next =>
      refine ⟨h.coherent, rfl, fun a ha hda => ?_⟩
      rw [h.clean a ha] at hda
      cases hda
  obtain ⟨hcoh, hbase, hdirty⟩ := hcfb
  rw [FbInfo.fbDraw]
  dsimp only
  have hlines : ∀ a, s.InFrame a → (s.cfbDraw draws).mem.dirty a = true →
      s.screenBase + rect.dy * lcdLineLen ≤ a ∧
        a < s.screenBase + rect.dy * lcdLineLen + rect.height * lcdLineLen := by
    intro a ha hda
    obtain ⟨w, hw, rfl⟩ := hdirty a ha hda
    exact hin w hw
  have hscreen : (s.cfbDraw draws).screenBase = s.screenBase := by
    rw [FbInfo.screenBase, FbInfo.screenBase, hbase]
  have hframe : ∀ a, (s.cfbDraw draws).InFrame a → s.InFrame a := by
    intro a ha
    rw [FbInfo.InFrame, hbase] at ha
    exact ha
  split
  next hne =>
    refine ⟨hcoh.clean _ _, fun a ha => ?_⟩
    rw [← Bool.not_eq_true]
    intro hda
    obtain ⟨hda', hout⟩ := FbMem.clean_dirty.mp hda
    rw [hscreen] at hout
    exact hout (hlines a (hframe a ha) hda')
  next h0 =>
    refine ⟨hcoh, fun a ha => ?_⟩
    rw [← Bool.not_eq_true]
    intro hda
    obtain ⟨hlo, hhi⟩ := hlines a (hframe a ha) hda
    rw [not_not.mp h0, Nat.zero_mul] at hhi
    omega

/-- A write leaves the frame clean exactly if it stores none of its bytes. -/
theorem fbWrite_iff (h : FbInv s) (w : FbWrite) :
    (s.fbWrite w).2.mem.Coherent ∧
      ((∀ a, (s.fbWrite w).2.InFrame a → (s.fbWrite w).2.mem.dirty a = false) ↔ WriteOk s w) := by
  rw [FbInfo.fbWrite]
  split
  next hrun => exact ⟨h.coherent, fun _ => .inl hrun, fun _ => h.clean⟩
  next hrun =>
    split
    next hp => exact ⟨h.coherent, fun _ => .inr (.inl hp), fun _ => h.clean⟩
    next hp =>
      split
      next hk => exact ⟨h.coherent, fun _ => .inr (.inr (.inl hk)), fun _ => h.clean⟩
      next hk =>
        have hsync := fbSync_inv h.coherent
        obtain ⟨n, _, hn, hcoh, hdirty⟩ := fbWriteLoop_spec w.buf w.copies 0
          (s.fbSync.screenBase + w.p) 0 hsync.coherent (Nat.le_refl w.clipped)
        dsimp only
        generalize FbInfo.fbWriteLoop w.buf w.copies w.clipped 0 (s.fbSync.screenBase + w.p) 0
          w.clipped s.fbSync.mem = r at hcoh hdirty ⊢
        have hbase : s.fbSync.screenBase = s.smemStart + viewportOffset := rfl
        rw [hbase] at hdirty
        refine ⟨hcoh, ?_⟩
        constructor
        · intro hclean
          by_cases hn0 : n = 0
          · rcases hn.mp hn0 with hc | hcopy
            · exact .inr (.inr (.inr (.inl hc)))
            · exact .inr (.inr (.inr (.inr (.inl hcopy))))
          · -- The first byte stored is not one of the frame.
            refine .inr (.inr (.inr (.inr (.inr (Nat.le_of_not_lt fun hlt => ?_)))))
            have hin : s.InFrame (s.smemStart + viewportOffset + w.p) := ⟨by omega, by omega⟩
            have hd := (hdirty (s.smemStart + viewportOffset + w.p)).mpr
              (.inl ⟨Nat.le_refl _, by omega⟩)
            rw [hclean _ hin] at hd
            cases hd
        · intro hok a ha
          rw [← Bool.not_eq_true]
          intro hd
          rcases (hdirty a).mp hd with hrange | hold
          · have hframe : s.smemStart ≤ a ∧ a < s.smemStart + lcdFrameSize := ha
            have hn0 : n ≠ 0 := by omega
            rcases hok with h | h | h | h | h | h
            · exact hrun h
            · exact hp h
            · exact hk h
            · exact hn0 (hn.mpr (.inl h))
            · exact hn0 (hn.mpr (.inr h))
            · omega
          · rw [hsync.clean a ha] at hold
            cases hold

theorem fbInv_step {c : FbCall} (h : FbInv s) (hok : FbOk s c) (he : fbStep s c = some s') :
    FbInv s' := by
  cases c with
  | write w =>
    obtain rfl := Option.some.inj he
    obtain ⟨hcoh, hiff⟩ := fbWrite_iff h w
    exact ⟨hcoh, hiff.mpr hok⟩
  | fillrect rect draws | copyarea rect draws | imageblit rect draws =>
    rw [fbStep] at he
    split at he
    next hd =>
      obtain rfl := Option.some.inj he
      exact fbDraw_inv h hd
    next => cases he

/-- All sequences of calls after a successful `fb_probe`. -/
def fbSystem : System FbInfo FbCall where
  init s := ∃ fbBase mem, FbMem.Coherent mem ∧ s = FbInfo.fbProbe fbBase mem
  step := fbStep

theorem fbInv_reach (h : fbSystem.Reach FbOk s) : FbInv s := by
  apply System.Reach.invariant _ _ h
  · rintro s ⟨fbBase, mem, hcoh, hs⟩
    have hmem := hcoh.writes (FbInfo.blackFrame (fbBase + 256 - fbBase % 256))
    rw [hs, FbInfo.fbProbe]
    generalize FbInfo.blackFrame (fbBase + 256 - fbBase % 256) = l at hmem ⊢
    exact fbSync_inv hmem
  · intro s c s' hs hok he
    exact fbInv_step hs hok he

/-- In every run whose writes store no byte of the frame, the LTDC sees what was drawn. A call from
such a state leaves it so exactly if it is not a write that stores a byte of the frame. -/
theorem fb_screen_shows_drawn (h : fbSystem.Reach FbOk s) :
    s.Shown ∧ ∀ c s', fbStep s c = some s' → (s'.Shown ↔ FbOk s c) := by
  have hinv := fbInv_reach h
  refine ⟨hinv.shown, fun c s' he => ⟨fun hshown => ?_, fun hok => (fbInv_step hinv hok he).shown⟩⟩
  cases c with
  | write w =>
    obtain rfl := Option.some.inj he
    exact (fbWrite_iff hinv w).2.mp fun a ha => (hshown a ha).1
  | fillrect rect draws => trivial
  | copyarea area draws => trivial
  | imageblit image draws => trivial

/-- No byte is dirty. -/
def FbMem.blank : FbMem := ⟨fun _ => 0, fun _ => 0, fun _ => false⟩

/-- A pixel is drawn by a fill. -/
theorem fb_screen_shows_pixel : ∃ s', fbStep (.fbProbe 4096 .blank)
      (.fillrect ⟨0, 0, 1, 1⟩ [(4352 + viewportOffset, 7)]) = some s' ∧ s'.Shown := by
  have h0 : fbSystem.Reach FbOk (.fbProbe 4096 .blank) := .init ⟨4096, .blank, fun _ _ => rfl, rfl⟩
  have hbase : (FbInfo.fbProbe 4096 .blank).screenBase = 4352 + viewportOffset := rfl
  have hdraw : (FbInfo.fbProbe 4096 .blank).drawable ⟨0, 0, 1, 1⟩
      [(4352 + viewportOffset, 7)] = true := by
    rw [FbInfo.drawable, hbase]
    decide
  have hstep : fbStep (.fbProbe 4096 .blank)
      (.fillrect ⟨0, 0, 1, 1⟩ [(4352 + viewportOffset, 7)]) =
        some ((FbInfo.fbProbe 4096 .blank).stm32f7FbFillrect ⟨0, 0, 1, 1⟩
          [(4352 + viewportOffset, 7)]) := by
    rw [fbStep, if_pos hdraw]
  exact ⟨_, hstep, ((fb_screen_shows_drawn h0).2 _ _ hstep).mpr trivial⟩

private theorem write_first_dirty (h : s.running = true) :
    (s.fbWrite ⟨0, 1, fun _ => 7, true, fun _ => true⟩).2.mem.dirty
      (s.smemStart + viewportOffset) = true := by
  rw [FbInfo.fbWrite, if_neg (by rw [h]; decide), if_neg (by decide), if_neg (by decide)]
  show (FbMem.write s.fbSync.mem (s.smemStart + viewportOffset) 7).dirty _ = true
  exact FbMem.write_dirty.mpr (.inl rfl)

/-- One byte is written at the beginning of the viewport: it is a byte of the frame and dirty
afterwards. -/
theorem fb_write_left_dirty :
    (FbInfo.fbProbe 4096 .blank).InFrame (4352 + viewportOffset) ∧
      ((FbInfo.fbProbe 4096 .blank).fbWrite
        ⟨0, 1, fun _ => 7, true, fun _ => true⟩).2.mem.dirty (4352 + viewportOffset) = true := by
  constructor
  · show 4352 ≤ 4352 + viewportOffset ∧ 4352 + viewportOffset < 4352 + lcdFrameSize
    decide
  · have hrun : (FbInfo.fbProbe 4096 .blank).running = true := by rw [FbInfo.fbProbe, FbInfo.fbSync]
    have hstart : (FbInfo.fbProbe 4096 .blank).smemStart = 4352 := by
      rw [FbInfo.fbProbe, FbInfo.fbSync]
    rw [← hstart]
    exact write_first_dirty hrun

end LinuxStm32.Drivers.Video
