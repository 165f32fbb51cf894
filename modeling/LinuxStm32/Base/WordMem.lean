import LinuxStm32.Base.Access

/-!
# Words of byte memory and total correctness

What a write leaves at each address, words as the bytes they are made of, and words rewritten in
place. `twp c Q m` says that from `m` the program `c` returns and that `Q` holds of the value and
memory it returns; as for `wp`, the rules are equivalences.
-/

namespace LinuxStm32.Base

theorem wadd_zero {a : Nat} (ha : a < 4294967296) : wadd a 0 = a := Nat.mod_eq_of_lt ha

theorem wadd_wadd (a j k : Nat) : wadd (wadd a j) k = wadd a (j + k) := by
  unfold wadd
  omega

/-- The distance back to a word from an offset. -/
theorem wsub_wadd {a k : Nat} (ha : a < 4294967296) (hk : k < 4294967296) :
    wsub (wadd a k) a = k := by
  unfold wsub wadd
  omega

theorem wadd_wsub {a b : Nat} (ha : a < 4294967296) (hb : b < 4294967296) :
    wadd a (wsub b a) = b := by
  unfold wsub wadd
  omega

namespace Mem

variable {m : Mem} {f : Nat → UInt8} {a b n k : Nat}

/-! ### Bytes -/

theorem write_of_lt (m : Mem) (f : Nat → UInt8) (h : wsub b a < n) :
    m.write a n f b = f (wsub b a) :=
  if_pos h

/-- The byte at an offset of what was written. -/
theorem write_at (m : Mem) (f : Nat → UInt8) (ha : a < 4294967296) (hk : k < n)
    (hn : n ≤ 4294967296) : m.write a n f (wadd a k) = f k := by
  have hoff : wsub (wadd a k) a = k := wsub_wadd ha (by omega)
  rw [write_of_lt m f (by rw [hoff]; exact hk), hoff]

theorem write_zero (m : Mem) (a : Nat) (f : Nat → UInt8) : m.write a 0 f = m := by
  funext b
  exact write_of_le m f (Nat.zero_le _)

/-- Two writes side by side are one. -/
theorem write_write (m : Mem) (f g : Nat → UInt8) {n n' : Nat} (ha : a < 4294967296)
    (hn : n + n' ≤ 4294967296) :
    (m.write (wadd a n) n' g).write a n f =
      m.write a (n + n') fun k => if k < n then f k else g (k - n) := by
  funext b
  by_cases hlow : wsub b a < n
  · rw [write_of_lt _ _ hlow, write_of_lt _ _ (by omega), if_pos hlow]
  · rw [write_of_le _ _ (by omega)]
    have hoff : wsub b a < n + n' → wsub b (wadd a n) = wsub b a - n := by
      intro _
      simp only [wsub, wadd] at *
      omega
    by_cases hmid : wsub b a < n + n'
    · rw [write_of_lt m g (by rw [hoff hmid]; omega), write_of_lt _ _ hmid, if_neg hlow,
        hoff hmid]
    · rw [write_of_le m g (by simp only [wsub, wadd] at *; omega),
        write_of_le _ _ (by omega)]

/-- Writes are equal when their bytes are. -/
theorem write_congr (m : Mem) {f g : Nat → UInt8} (h : ∀ k < n, f k = g k) :
    m.write a n f = m.write a n g := by
  funext b
  by_cases hb : wsub b a < n
  · rw [write_of_lt _ _ hb, write_of_lt _ _ hb, h _ hb]
  · rw [write_of_le _ _ (by omega), write_of_le _ _ (by omega)]

/-! ### Words -/

theorem word_lt (m : Mem) (a : Nat) : m.word a < 4294967296 := by
  have h0 := (m a).toNat_lt
  have h1 := (m (wadd a 1)).toNat_lt
  have h2 := (m (wadd a 2)).toNat_lt
  have h3 := (m (wadd a 3)).toNat_lt
  unfold word
  omega

/-- A word is its four bytes. -/
theorem word_congr {m m' : Mem} (ha : a < 4294967296)
    (h : ∀ k < 4, m (wadd a k) = m' (wadd a k)) : m.word a = m'.word a := by
  have h0 := h 0 (by decide)
  rw [wadd_zero ha] at h0
  rw [word, word, h0, h 1 (by decide), h 2 (by decide), h 3 (by decide)]

theorem bytesOf_word (m : Mem) (ha : a < 4294967296) (hk : k < 4) :
    bytesOf (m.word a) k = m (wadd a k) := by
  have h0 := (m a).toNat_lt
  have h1 := (m (wadd a 1)).toNat_lt
  have h2 := (m (wadd a 2)).toNat_lt
  have h3 := (m (wadd a 3)).toNat_lt
  apply UInt8.toNat_inj.mp
  obtain rfl | rfl | rfl | rfl : k = 0 ∨ k = 1 ∨ k = 2 ∨ k = 3 := by omega
  · rw [wadd_zero ha, bytesOf, UInt8.toNat_ofNat', word]
    omega
  · rw [bytesOf, UInt8.toNat_ofNat', word]
    omega
  · rw [bytesOf, UInt8.toNat_ofNat', word]
    omega
  · rw [bytesOf, UInt8.toNat_ofNat', word]
    · omega
    · decide
    · decide
    · decide

/-- The word of given bytes. -/
theorem word_of_bytes {v : Nat} (ha : a < 4294967296) (hv : v < 4294967296)
    (h : ∀ k < 4, m (wadd a k) = bytesOf v k) : m.word a = v := by
  have h0 := h 0 (by decide)
  rw [wadd_zero ha] at h0
  rw [word, h0, h 1 (by decide), h 2 (by decide), h 3 (by decide)]
  simp only [bytesOf, UInt8.toNat_ofNat']
  omega

/-- A stored word reads back. -/
theorem word_write (m : Mem) {v : Nat} (ha : a < 4294967296) (hv : v < 4294967296) :
    (m.write a 4 (bytesOf v)).word a = v :=
  word_of_bytes ha hv fun _ hk => write_at m (bytesOf v) ha hk (by decide)

/-! ### Words rewritten in place -/

/-- Two words do not overlap. -/
def Apart (a b : Nat) : Prop := a + 4 ≤ b ∨ b + 4 ≤ a

theorem Apart.symm (h : Apart a b) : Apart b a := Or.symm h

/-- A store keeps the bytes of a word apart from it. -/
theorem write_apart (m : Mem) (f : Nat → UInt8) (ha : a + 4 ≤ 4294967296)
    (hb : b + 4 ≤ 4294967296) (h : Apart a b) (hk : k < 4) :
    m.write a 4 f (wadd b k) = m (wadd b k) := by
  apply write_of_le
  unfold Apart at h
  simp only [wsub, wadd]
  omega

theorem word_write_apart (m : Mem) (f : Nat → UInt8) (ha : a + 4 ≤ 4294967296)
    (hb : b + 4 ≤ 4294967296) (h : Apart a b) : (m.write a 4 f).word b = m.word b :=
  word_congr (by omega) fun _ hk => write_apart m f ha hb h hk

/-- A word is replaced by its image, or kept where it has none. -/
def rewriteWord (g : Nat → Option Nat) (m : Mem) (a : Nat) : Mem :=
  match g (m.word a) with
  | none => m
  | some v => m.write a 4 (bytesOf v)

/-- The words are rewritten one after the other. -/
def rewriteWords (g : Nat → Option Nat) (as : List Nat) (m : Mem) : Mem :=
  as.foldl (rewriteWord g) m

variable (g : Nat → Option Nat)

theorem rewriteWords_cons (a : Nat) (as : List Nat) (m : Mem) :
    rewriteWords g (a :: as) m = rewriteWords g as (rewriteWord g m a) := by
  rw [rewriteWords, List.foldl_cons, rewriteWords]

theorem rewriteWord_none (h : g (m.word a) = none) : rewriteWord g m a = m := by
  rw [rewriteWord, h]

theorem rewriteWord_some {v : Nat} (h : g (m.word a) = some v) :
    rewriteWord g m a = m.write a 4 (bytesOf v) := by
  rw [rewriteWord, h]

theorem rewriteWord_of_le (h : 4 ≤ wsub b a) : rewriteWord g m a b = m b := by
  cases hg : g (m.word a) with
  | none => rw [rewriteWord_none g hg]
  | some v => rw [rewriteWord_some g hg, write_of_le m _ h]

theorem rewriteWord_at (ha : a < 4294967296) (hk : k < 4) :
    rewriteWord g m a (wadd a k) = bytesOf ((g (m.word a)).getD (m.word a)) k := by
  cases hg : g (m.word a) with
  | none => rw [rewriteWord_none g hg, Option.getD_none, bytesOf_word m ha hk]
  | some v => rw [rewriteWord_some g hg, Option.getD_some, write_at m _ ha hk (by decide)]

theorem word_rewriteWord_apart (ha : a + 4 ≤ 4294967296) (hb : b + 4 ≤ 4294967296)
    (h : Apart a b) : (rewriteWord g m a).word b = m.word b := by
  cases hg : g (m.word a) with
  | none => rw [rewriteWord_none g hg]
  | some v => rw [rewriteWord_some g hg, word_write_apart m _ ha hb h]

/-- A byte of none of the words is kept. -/
theorem rewriteWords_of_not_mem {as : List Nat} (h : ∀ a ∈ as, 4 ≤ wsub b a) :
    rewriteWords g as m b = m b := by
  induction as generalizing m with
  | nil => rfl
  | cons a as ih =>
    have htail := fun c hc => h c (List.mem_cons_of_mem a hc)
    rw [rewriteWords_cons, ih htail, rewriteWord_of_le g (h a List.mem_cons_self)]

/-- Each word is rewritten once, from what it was at the start. -/
theorem rewriteWords_mem {as : List Nat} (hlt : ∀ a ∈ as, a + 4 ≤ 4294967296)
    (hap : as.Pairwise Apart) (ha : a ∈ as) (hk : k < 4) :
    rewriteWords g as m (wadd a k) = bytesOf ((g (m.word a)).getD (m.word a)) k := by
  induction as generalizing m with
  | nil => cases ha
  | cons c as ih =>
    obtain ⟨hc, hap⟩ := List.pairwise_cons.mp hap
    have hclt := hlt c List.mem_cons_self
    rw [rewriteWords_cons]
    rcases List.mem_cons.mp ha with rfl | ha
    · have hkeep : ∀ d ∈ as, 4 ≤ wsub (wadd a k) d := by
        intro d hd
        have hdlt := hlt d (List.mem_cons_of_mem a hd)
        have had := hc d hd
        unfold Apart at had
        simp only [wsub, wadd]
        omega
      rw [rewriteWords_of_not_mem g hkeep, rewriteWord_at g (by omega) hk]
    · have hdlt := hlt a (List.mem_cons_of_mem c ha)
      rw [ih (fun d hd => hlt d (List.mem_cons_of_mem c hd)) hap ha,
        word_rewriteWord_apart g hclt hdlt (hc a ha)]

/-! ### Byte strings and what a program leaves alone -/

/-- The bytes from an address on are those of a list. -/
def Holds (m : Mem) (a : Nat) (bs : List UInt8) : Prop :=
  ∀ k c, bs[k]? = some c → m (wadd a k) = c

theorem Holds.append_left {bs cs : List UInt8} (h : m.Holds a (bs ++ cs)) : m.Holds a bs := by
  intro k c hk
  apply h k c
  obtain ⟨hlt, -⟩ := List.getElem?_eq_some_iff.mp hk
  rw [List.getElem?_append_left hlt, hk]

theorem Holds.append_right {bs cs : List UInt8} (h : m.Holds a (bs ++ cs)) :
    m.Holds (wadd a bs.length) cs := by
  intro k c hk
  rw [wadd_wadd]
  apply h
  rw [List.getElem?_append_right (Nat.le_add_right _ _), Nat.add_sub_cancel_left, hk]

/-- From `m` to `m'` only bytes at offsets from `lo` up to `hi` behind `a` change. -/
def ChangesIn (m m' : Mem) (a lo hi : Nat) : Prop :=
  ∀ b < 4294967296, wsub b a < lo ∨ hi ≤ wsub b a → m' b = m b

variable {m' : Mem} {lo hi : Nat}

theorem ChangesIn.write (m : Mem) (f : Nat → UInt8) (ha : a < 4294967296) {j : Nat}
    (hn : j + n ≤ 4294967296) : ChangesIn m (m.write (wadd a j) n f) a j (j + n) := by
  intro b hb hout
  apply write_of_le
  unfold wsub wadd at *
  omega

theorem ChangesIn.trans {m'' : Mem} {lo' hi' : Nat} (h : ChangesIn m m' a lo hi)
    (h' : ChangesIn m' m'' a lo' hi') (hlo : lo ≤ lo') (hhi : hi ≤ hi') :
    ChangesIn m m'' a lo hi' := by
  intro b hb hout
  rw [h' b hb (by omega), h b hb (by omega)]

theorem ChangesIn.word (h : ChangesIn m m' a lo hi) (ha : a < 4294967296) {j : Nat}
    (hj : j + 4 ≤ 4294967296) (hout : j + 4 ≤ lo ∨ hi ≤ j) :
    m'.word (wadd a j) = m.word (wadd a j) := by
  apply word_congr (wadd_lt a j)
  intro k hk
  rw [wadd_wadd]
  apply h _ (wadd_lt _ _)
  rw [wsub_wadd ha (by omega)]
  omega

theorem ChangesIn.holds (h : ChangesIn m m' a lo hi) (ha : a < 4294967296) {d : Nat}
    {bs : List UInt8} (hd : hi ≤ d) (hlen : d + bs.length ≤ 4294967296)
    (hm : m.Holds (wadd a d) bs) : m'.Holds (wadd a d) bs := by
  intro k c hk
  have hlt := (List.getElem?_eq_some_iff.mp hk).1
  rw [← hm k c hk, wadd_wadd]
  apply h _ (wadd_lt _ _)
  rw [wsub_wadd ha (by omega)]
  omega

end Mem

/-! ### Total correctness -/

namespace Prog

variable {ε α β : Type} {Q : α → Mem → Prop} {m : Mem} {c : Prog ε α}

/-- From `m` the program returns, and `Q` holds of the value and memory it returns. -/
def twp (c : Prog ε α) (Q : α → Mem → Prop) (m : Mem) : Prop :=
  ∃ v, (c m).result = .ok v ∧ Q v (c m).mem

@[simp] theorem twp_pure (v : α) : twp (pure v : Prog ε α) Q m ↔ Q v m := by
  constructor
  · rintro ⟨w, hw, hq⟩
    cases hw
    exact hq
  · intro hq
    exact ⟨v, rfl, hq⟩

@[simp] theorem twp_fail (e : ε) : twp (fail e : Prog ε α) Q m ↔ False :=
  ⟨fun ⟨_, hw, _⟩ => (nomatch hw), False.elim⟩

@[simp] theorem twp_inspect (f : Mem → α) : twp (inspect f : Prog ε α) Q m ↔ Q (f m) m :=
  twp_pure (f m)

@[simp] theorem twp_load32 (a : Nat) {Q : Nat → Mem → Prop} :
    twp (load32 a : Prog ε Nat) Q m ↔ Q (m.word a) m := by
  constructor
  · rintro ⟨w, hw, hq⟩
    cases hw
    exact hq
  · intro hq
    exact ⟨_, rfl, hq⟩

@[simp] theorem twp_fill (a n : Nat) (f : Nat → UInt8) {Q : Unit → Mem → Prop} :
    twp (fill a n f : Prog ε Unit) Q m ↔ Q () (m.write a n f) := by
  constructor
  · rintro ⟨w, hw, hq⟩
    cases hw
    exact hq
  · intro hq
    exact ⟨_, rfl, hq⟩

@[simp] theorem twp_store32 (a v : Nat) {Q : Unit → Mem → Prop} :
    twp (store32 a v : Prog ε Unit) Q m ↔ Q () (m.write a 4 (Mem.bytesOf v)) :=
  twp_fill a 4 _

@[simp] theorem twp_bind (c : Prog ε α) (f : α → Prog ε β) {Q : β → Mem → Prop} :
    twp (c >>= f) Q m ↔ twp c (fun v m' => twp (f v) Q m') m := by
  cases hr : (c m).result with
  | error e => simp [twp, bind, hr]
  | ok v => simp [twp, bind, hr]

theorem result_bind {f : α → Prog ε β} {v : α} (h : (c m).result = .ok v) :
    ((c >>= f) m).result = (f v (c m).mem).result := by
  simp only [bind, h]

theorem result_bind_error {f : α → Prog ε β} {e : ε}
    (h : (c m).result = .error e) : ((c >>= f) m).result = .error e := by
  simp only [bind, h]

/-- What a program returned satisfies every postcondition that it is known to reach. -/
theorem twp_iff_of_result {v : α} (h : (c m).result = .ok v) :
    twp c Q m ↔ Q v (c m).mem := by
  rw [twp, h]
  simp

end Prog
end LinuxStm32.Base
