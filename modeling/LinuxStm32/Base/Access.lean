import LinuxStm32.Base.Word

/-!
# Programs over byte memory and the bytes they touch

A program runs on a memory of bytes with 32-bit addresses. Its run has a result, the memory it
leaves and the list of the accesses it made. `wp P c Q m` says that from `m` every byte touched
by `c` satisfies `P`, and that `Q` holds of the value and memory if `c` returns one. The rules
for `wp` are equivalences: what they compute is the exact condition, not only a sufficient one.
-/

namespace LinuxStm32.Base

/-! ### Memory -/

/-- A byte for every address. -/
abbrev Mem := Nat → UInt8

namespace Mem

/-- The little-endian word at an address; the bytes may wrap around the address space. -/
def word (m : Mem) (a : Nat) : Nat :=
  (m a).toNat + 256 * (m (wadd a 1)).toNat + 65536 * (m (wadd a 2)).toNat +
    16777216 * (m (wadd a 3)).toNat

/-- Replace the `n` bytes from an address on. -/
def write (m : Mem) (a n : Nat) (f : Nat → UInt8) : Mem :=
  fun b => if wsub b a < n then f (wsub b a) else m b

/-- The bytes of a word, little-endian. -/
def bytesOf (v : Nat) : Nat → UInt8
  | 0 => UInt8.ofNat v
  | 1 => UInt8.ofNat (v / 256)
  | 2 => UInt8.ofNat (v / 65536)
  | _ => UInt8.ofNat (v / 16777216)

theorem write_of_le (m : Mem) (f : Nat → UInt8) {a n b : Nat} (h : n ≤ wsub b a) :
    m.write a n f b = m b :=
  if_neg (by omega)

/-- A word that starts at least four bytes past a written word, and ends before it, is kept. -/
theorem word_write_of_le (m : Mem) (f : Nat → UInt8) {a d n : Nat} (ha : a < 4294967296)
    (hn : n ≤ d) (hd : d + 4 ≤ 4294967296) :
    (m.write a n f).word (wadd a d) = m.word (wadd a d) := by
  have hoff : ∀ k < 4, n ≤ wsub (wadd (wadd a d) k) a := by
    intro k hk
    simp only [wadd, wsub]
    omega
  have h0 : wadd (wadd a d) 0 = wadd a d := by simp only [wadd]; omega
  have hoff0 := hoff 0 (by decide)
  rw [h0] at hoff0
  rw [word, word, write_of_le m f hoff0, write_of_le m f (hoff 1 (by decide)),
    write_of_le m f (hoff 2 (by decide)), write_of_le m f (hoff 3 (by decide))]

end Mem

/-- Exchange the bytes of a word; `ntohl` on a little-endian machine. -/
def ntohl (w : Nat) : Nat :=
  w % 256 * 16777216 + w / 256 % 256 * 65536 + w / 65536 % 256 * 256 + w / 16777216 % 256

/-! ### Accesses -/

/-- A run of bytes that is read or written; it wraps at the end of the address space. -/
structure Access where
  addr : Nat
  len : Nat
  deriving DecidableEq, Repr

namespace Access

/-- All bytes of the access satisfy `P`. -/
def Inside (P : Nat → Prop) (a : Access) : Prop := ∀ k < a.len, P (wadd a.addr k)

variable {P : Nat → Prop}

theorem inside_zero (a : Nat) : Inside P ⟨a, 0⟩ := fun _ hk => absurd hk (Nat.not_lt_zero _)

/-- An access is inside when both of its parts are. -/
theorem inside_add (a n n' : Nat) :
    Inside P ⟨a, n + n'⟩ ↔ Inside P ⟨a, n⟩ ∧ Inside P ⟨wadd a n, n'⟩ := by
  constructor
  · intro h
    refine ⟨fun k hk => h k (by dsimp only at hk ⊢; omega), fun k hk => ?_⟩
    have hb := h (n + k) (by dsimp only at hk ⊢; omega)
    have he : wadd (wadd a n) k = wadd a (n + k) := by simp only [wadd]; omega
    dsimp only at hb ⊢
    rw [he]
    exact hb
  · rintro ⟨h1, h2⟩ k hk
    dsimp only at hk ⊢
    rcases Nat.lt_or_ge k n with hlt | hge
    · exact h1 k hlt
    · have hb := h2 (k - n) (by dsimp only; omega)
      have he : wadd (wadd a n) (k - n) = wadd a k := by simp only [wadd]; omega
      dsimp only at hb
      rw [he] at hb
      exact hb

end Access

/-- `P` holds from `lo` up to `hi` and at no byte of the `g` before or at the one after. -/
structure Span (P : Nat → Prop) (g lo hi : Nat) : Prop where
  lt : lo < hi
  top : hi < 4294967296
  mem : ∀ a, lo ≤ a → a < hi → P a
  gap : 0 < g
  room : g ≤ lo
  below : ∀ a, a < lo → lo ≤ a + g → ¬ P a
  above : ¬ P hi

namespace Span

variable {P : Nat → Prop} {g lo hi a n : Nat}

/-- An access that starts in the span is inside when it ends in the span. -/
theorem inside_iff (h : Span P g lo hi) (ha : lo ≤ a) (ha' : a < hi) :
    Access.Inside P ⟨a, n⟩ ↔ a + n ≤ hi := by
  have htop := h.top
  constructor
  · intro hin
    apply Nat.le_of_not_lt
    intro hlt
    have hb := hin (hi - a) (by dsimp only; omega)
    rw [wadd_of_lt (by dsimp only; omega)] at hb
    dsimp only at hb
    rw [Nat.add_sub_cancel' (Nat.le_of_lt ha')] at hb
    exact h.above hb
  · intro hle k hk
    dsimp only at hk ⊢
    rw [wadd_of_lt (by omega)]
    exact h.mem _ (by omega) (by omega)

/-- An access that ends in the span is inside when it starts in the span. -/
theorem inside_iff_end {e : Nat} (h : Span P g lo hi) (he : lo < e) (he' : e ≤ hi)
    (hn : n < 4294967296) : Access.Inside P ⟨wsub e n, n⟩ ↔ lo + n ≤ e := by
  have htop := h.top
  have hgap := h.gap
  have hroom := h.room
  constructor
  · intro hin
    apply Nat.le_of_not_lt
    intro hlt
    -- the byte just below the span is one of the bytes before `e`
    have hb := hin (n - (e - lo) - 1) (by dsimp only; omega)
    have hx : wadd (wsub e n) (n - (e - lo) - 1) = lo - 1 := by
      simp only [wadd, wsub]
      omega
    dsimp only at hb
    rw [hx] at hb
    exact h.below (lo - 1) (by omega) (by omega) hb
  · intro hle
    rw [wsub_of_le (by omega) (by omega)]
    rcases Nat.eq_zero_or_pos n with rfl | hpos
    · exact Access.inside_zero _
    · exact (h.inside_iff (by omega) (by omega)).mpr (by omega)

/-- The whole address space is not inside. -/
theorem not_inside_all (h : Span P g lo hi) (hn : 4294967296 ≤ n) (ha : a < 4294967296) :
    ¬ Access.Inside P ⟨a, n⟩ := by
  intro hin
  have htop := h.top
  have hb := hin (wsub hi a) (by have := wsub_lt hi a; dsimp only; omega)
  have hx : wadd a (wsub hi a) = hi := by
    simp only [wadd, wsub]
    omega
  dsimp only at hb
  rw [hx] at hb
  exact h.above hb

end Span

/-! ### Programs -/

/-- What a run leaves. -/
structure Run (ε α : Type) where
  accesses : List Access
  mem : Mem
  result : Except ε α

/-- A program that may stop with an `ε` or return an `α`. -/
def Prog (ε α : Type) := Mem → Run ε α

namespace Prog

variable {ε α β : Type} {c : Prog ε α}

instance : Monad (Prog ε) where
  pure v := fun m => ⟨[], m, .ok v⟩
  bind c f := fun m =>
    match (c m).result with
    | .ok v => ⟨(c m).accesses ++ (f v (c m).mem).accesses, (f v (c m).mem).mem,
        (f v (c m).mem).result⟩
    | .error e => ⟨(c m).accesses, (c m).mem, .error e⟩

/-- Stop. -/
def fail (e : ε) : Prog ε α := fun m => ⟨[], m, .error e⟩

/-- Look at the memory without an access that counts. -/
def inspect (f : Mem → α) : Prog ε α := fun m => ⟨[], m, .ok (f m)⟩

/-- Read a word. -/
def load32 (a : Nat) : Prog ε Nat := fun m => ⟨[⟨a, 4⟩], m, .ok (m.word a)⟩

/-- Write `n` bytes from an address on. -/
def fill (a n : Nat) (f : Nat → UInt8) : Prog ε Unit := fun m => ⟨[⟨a, n⟩], m.write a n f, .ok ()⟩

/-- Write a word. -/
def store32 (a v : Nat) : Prog ε Unit := fill a 4 (Mem.bytesOf v)

/-- Every byte that `c` touches from `m` is in `P`, and `Q` holds if `c` returns. -/
def wp (P : Nat → Prop) (c : Prog ε α) (Q : α → Mem → Prop) (m : Mem) : Prop :=
  (∀ a ∈ (c m).accesses, a.Inside P) ∧ ∀ v, (c m).result = .ok v → Q v (c m).mem

variable {P : Nat → Prop} {Q : α → Mem → Prop} {m : Mem}

/-- All accesses are inside exactly when the condition of the trivial postcondition holds. -/
theorem wp_true : wp P c (fun _ _ => True) m ↔ ∀ a ∈ (c m).accesses, a.Inside P :=
  ⟨fun h => h.1, fun h => ⟨h, fun _ _ => trivial⟩⟩

@[simp] theorem wp_pure (v : α) : wp P (pure v : Prog ε α) Q m ↔ Q v m := by
  constructor
  · intro h
    exact h.2 v rfl
  · intro h
    refine ⟨fun a ha => absurd ha (List.not_mem_nil), fun w hw => ?_⟩
    cases hw
    exact h

@[simp] theorem wp_fail (e : ε) : wp P (fail e : Prog ε α) Q m ↔ True :=
  ⟨fun _ => trivial, fun _ => ⟨fun _ ha => absurd ha (List.not_mem_nil), fun _ hw => nomatch hw⟩⟩

@[simp] theorem wp_inspect (f : Mem → α) : wp P (inspect f : Prog ε α) Q m ↔ Q (f m) m :=
  wp_pure (f m)

/-- The rule for a program that makes one access. -/
theorem wp_access {a n : Nat} {m' : Mem} {v : α}
    (hc : c m = ⟨[⟨a, n⟩], m', .ok v⟩) : wp P c Q m ↔ Access.Inside P ⟨a, n⟩ ∧ Q v m' := by
  unfold wp
  rw [hc]
  constructor
  · intro h
    exact ⟨h.1 _ List.mem_cons_self, h.2 _ rfl⟩
  · rintro ⟨h1, h2⟩
    refine ⟨fun b hb => ?_, fun w hw => ?_⟩
    · rw [List.mem_singleton.mp hb]
      exact h1
    · cases hw
      exact h2

@[simp] theorem wp_load32 (a : Nat) {Q : Nat → Mem → Prop} :
    wp P (load32 a : Prog ε Nat) Q m ↔ Access.Inside P ⟨a, 4⟩ ∧ Q (m.word a) m :=
  wp_access rfl

@[simp] theorem wp_fill (a n : Nat) (f : Nat → UInt8) {Q : Unit → Mem → Prop} :
    wp P (fill a n f : Prog ε Unit) Q m ↔ Access.Inside P ⟨a, n⟩ ∧ Q () (m.write a n f) :=
  wp_access rfl

@[simp] theorem wp_store32 (a v : Nat) {Q : Unit → Mem → Prop} :
    wp P (store32 a v : Prog ε Unit) Q m ↔
      Access.Inside P ⟨a, 4⟩ ∧ Q () (m.write a 4 (Mem.bytesOf v)) :=
  wp_fill a 4 _

@[simp] theorem wp_bind (c : Prog ε α) (f : α → Prog ε β) {Q : β → Mem → Prop} :
    wp P (c >>= f) Q m ↔ wp P c (fun v m' => wp P (f v) Q m') m := by
  have hbind : (c >>= f) m = match (c m).result with
      | .ok v => ⟨(c m).accesses ++ (f v (c m).mem).accesses, (f v (c m).mem).mem,
          (f v (c m).mem).result⟩
      | .error e => ⟨(c m).accesses, (c m).mem, .error e⟩ := rfl
  simp only [wp, hbind]
  cases hr : (c m).result with
  | error e => simp
  | ok v =>
    simp only [List.mem_append, Except.ok.injEq, forall_eq']
    constructor
    · rintro ⟨h1, h2⟩
      exact ⟨fun a ha => h1 a (.inl ha), fun a ha => h1 a (.inr ha), h2⟩
    · rintro ⟨h1, h2, h3⟩
      exact ⟨fun a ha => ha.elim (h1 a) (h2 a), h3⟩

/-- The accesses of a program's first part are accesses of the program. -/
theorem mem_bind_of_left {f : α → Prog ε β} {a : Access}
    (h : a ∈ (c m).accesses) : a ∈ ((c >>= f) m).accesses := by
  simp only [bind]
  split
  · exact List.mem_append_left _ h
  · exact h

/-- Equivalent postconditions give equivalent conditions. -/
theorem wp_congr {Q' : α → Mem → Prop} (h : ∀ v m', Q v m' ↔ Q' v m') :
    wp P c Q m ↔ wp P c Q' m := by
  have he : Q = Q' := by
    funext v m'
    exact propext (h v m')
  rw [he]

end Prog
end LinuxStm32.Base
