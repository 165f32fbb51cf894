import Mathlib.Data.List.Nodup

/-!
# Red-black trees with a hole

A place in a tree is the tree below it and the frames above it, the innermost first. Everything
that has a mirror image is stated once, with the side as a parameter. Whether the whole tree is
red-black is what the tree below and the frames say separately about the black height between
them; that is what a repair that works its way up has to look at.
-/

namespace LinuxStm32.Base.RedBlack

universe u

/-- Left or right. -/
inductive Side
  | left
  | right
  deriving DecidableEq, Repr

/-- The other side. -/
def Side.flip : Side → Side
  | .left => .right
  | .right => .left

@[simp] theorem Side.flip_flip (s : Side) : s.flip.flip = s := by
  cases s <;> rfl

theorem Side.eq_flip_of_ne {s s' : Side} (h : s' ≠ s) : s' = s.flip := by
  cases s <;> cases s' <;> first | rfl | exact absurd rfl h

/-- The colour of a node. -/
inductive Color
  | red
  | black
  deriving DecidableEq, Repr

/-- What a node adds to the black height. -/
def Color.height : Color → Nat
  | .red => 0
  | .black => 1

theorem Color.ne_red {c : Color} : c ≠ .red ↔ c = .black := by
  cases c <;> decide

/-- What holds of red nodes only says nothing about black ones. -/
theorem Color.of_black_red {p : Prop} (h : Color.black = .red) : p := absurd h (by decide)

/-- A tree of coloured nodes. -/
inductive ColorTree (α : Type u)
  | nil
  | node (c : Color) (l : ColorTree α) (x : α) (r : ColorTree α)
  deriving DecidableEq, Repr

variable {α : Type u} {c : Color}

namespace ColorTree

variable {c c' : Color} {s : Side} {x y : α} {a b t : ColorTree α} {n : Nat}

/-- A node with `near` on the side `s` and `far` on the other. -/
def branch (s : Side) (c : Color) (x : α) (near far : ColorTree α) : ColorTree α :=
  match s with
  | .left => node c near x far
  | .right => node c far x near

theorem branch_flip : branch s.flip c x a b = branch s c x b a := by
  cases s <;> rfl

/-- The nodes in order. -/
def inorder : ColorTree α → List α
  | nil => []
  | node _ l x r => l.inorder ++ x :: r.inorder

/-- The colour of the root; an empty tree counts as black. -/
def color : ColorTree α → Color
  | nil => .black
  | node c _ _ _ => c

/-- The tree with its root black. -/
def blacken : ColorTree α → ColorTree α
  | nil => nil
  | node _ l x r => node .black l x r

/-- No red node has a red child. -/
def NoRedRed : ColorTree α → Prop
  | nil => True
  | node c l _ r =>
    (c = .red → l.color = .black ∧ r.color = .black) ∧ l.NoRedRed ∧ r.NoRedRed

/-- Every path down passes `n` black nodes. -/
def HasHeight : ColorTree α → Nat → Prop
  | nil, n => n = 0
  | node c l _ r, n => ∃ h, n = h + c.height ∧ l.HasHeight h ∧ r.HasHeight h

/-- The red-black invariants. -/
structure IsRedBlack (t : ColorTree α) : Prop where
  root : t.color = .black
  noRedRed : t.NoRedRed
  height : ∃ n, t.HasHeight n

@[simp] theorem color_branch : (branch s c x a b).color = c := by
  cases s <;> rfl

theorem noRedRed_branch : (branch s c x a b).NoRedRed ↔
    (c = .red → a.color = .black ∧ b.color = .black) ∧ a.NoRedRed ∧ b.NoRedRed := by
  cases s
  · rfl
  · simp only [branch, NoRedRed]
    tauto

theorem hasHeight_branch : (branch s c x a b).HasHeight n ↔
    ∃ h, n = h + c.height ∧ a.HasHeight h ∧ b.HasHeight h := by
  cases s
  · rfl
  · simp only [branch, HasHeight, and_comm (a := b.HasHeight _)]

@[simp] theorem blacken_branch : (branch s c x a b).blacken = branch s .black x a b := by
  cases s <;> rfl

@[simp] theorem inorder_blacken : t.blacken.inorder = t.inorder := by
  cases t <;> rfl

@[simp] theorem color_blacken : t.blacken.color = .black := by
  cases t <;> rfl

theorem blacken_of_black (h : t.color = .black) : t.blacken = t := by
  cases t with
  | nil => rfl
  | node c l x r =>
    cases h
    rfl

theorem noRedRed_blacken (h : t.NoRedRed) : t.blacken.NoRedRed := by
  cases t with
  | nil => trivial
  | node c l x r => exact ⟨Color.of_black_red, h.2⟩

/-- A red root turned black adds to the height. -/
theorem hasHeight_blacken (hred : t.color = .red) (h : t.HasHeight n) :
    t.blacken.HasHeight (n + 1) := by
  cases t with
  | nil => cases hred
  | node c l x r =>
    cases hred
    obtain ⟨_, rfl, hl, hr⟩ := h
    exact ⟨_, rfl, hl, hr⟩

/-- Only the root of a tree may have been at fault. -/
theorem isRedBlack_blacken (hred : t.blacken.NoRedRed) (h : t.HasHeight n) :
    t.blacken.IsRedBlack := by
  refine ⟨color_blacken, hred, ?_⟩
  cases hc : t.color with
  | red => exact ⟨n + 1, hasHeight_blacken hc h⟩
  | black =>
    rw [blacken_of_black hc]
    exact ⟨n, h⟩

/-- A tree with a black node on every path has a root. -/
theorem exists_branch_of_hasHeight (s : Side) (h : t.HasHeight (n + 1)) :
    ∃ c x a b, t = branch s c x a b := by
  cases t with
  | nil => cases h
  | node c l x r =>
    cases s
    · exact ⟨c, x, l, r, rfl⟩
    · exact ⟨c, x, r, l, rfl⟩

/-- So has one with a red root. -/
theorem exists_branch_of_red (s : Side) (h : t.color = .red) :
    ∃ x a b, t = branch s .red x a b := by
  cases t with
  | nil => cases h
  | node c l x r =>
    cases h
    cases s
    · exact ⟨x, l, r, rfl⟩
    · exact ⟨x, r, l, rfl⟩

/-- Rotation keeps the order. -/
theorem inorder_rotate {d : ColorTree α} :
    (branch s c x a (branch s c' y b d)).inorder =
      (branch s c' y (branch s c x a b) d).inorder := by
  cases s <;> simp [branch, inorder]

/-- So do colours. -/
theorem inorder_recolor (c' : Color) :
    (branch s c x a b).inorder = (branch s c' x a b).inorder := by
  cases s <;> rfl

end ColorTree

open ColorTree

/-- A node above a place: the side on which the place is, and the tree on the other. -/
structure Frame (α : Type u) where
  side : Side
  color : Color
  label : α
  sibling : ColorTree α
  deriving DecidableEq, Repr

variable {f : Frame α} {k k' : List (Frame α)} {t t' : ColorTree α} {n : Nat}

/-- The node with a tree in its place. -/
def Frame.fill (f : Frame α) (t : ColorTree α) : ColorTree α :=
  branch f.side f.color f.label t f.sibling

/-- The whole tree around a place. -/
def plug : List (Frame α) → ColorTree α → ColorTree α
  | [], t => t
  | f :: k, t => plug k (f.fill t)

/-- The nodes before a place. -/
def before : List (Frame α) → List α
  | [] => []
  | f :: k =>
    match f.side with
    | .left => before k
    | .right => before k ++ (f.sibling.inorder ++ [f.label])

/-- The nodes after a place. -/
def after : List (Frame α) → List α
  | [] => []
  | f :: k =>
    match f.side with
    | .left => f.label :: f.sibling.inorder ++ after k
    | .right => after k

theorem node_ne_nil {l r : ColorTree α} {x : α} : node c l x r ≠ nil := by
  intro h
  cases h

theorem Frame.fill_ne_nil (f : Frame α) (t : ColorTree α) : f.fill t ≠ nil := by
  obtain ⟨s, c, x, b⟩ := f
  cases s <;> exact node_ne_nil

theorem plug_ne_nil (h : t ≠ nil) (k : List (Frame α)) : plug k t ≠ nil := by
  induction k generalizing t with
  | nil => exact h
  | cons f k ih => exact ih (f.fill_ne_nil t)

theorem plug_append (k k' : List (Frame α)) (t : ColorTree α) :
    plug (k ++ k') t = plug k' (plug k t) := by
  induction k generalizing t with
  | nil => rfl
  | cons f k ih => exact ih (f.fill t)

theorem inorder_plug (k : List (Frame α)) (t : ColorTree α) :
    (plug k t).inorder = before k ++ t.inorder ++ after k := by
  induction k generalizing t with
  | nil => simp [plug, before, after]
  | cons f k ih =>
    obtain ⟨s, c, x, b⟩ := f
    cases s <;> simp [plug, ih, before, after, Frame.fill, branch, inorder]

theorem inorder_plug_congr (h : t.inorder = t'.inorder) :
    (plug k t).inorder = (plug k t').inorder := by
  rw [inorder_plug, inorder_plug, h]

/-- All nodes above and beside a place. -/
def frameLabels : List (Frame α) → List α
  | [] => []
  | f :: k => f.label :: (f.sibling.inorder ++ frameLabels k)

theorem inorder_branch_perm {s : Side} {x : α} {a b : ColorTree α} :
    (branch s c x a b).inorder.Perm (x :: (a.inorder ++ b.inorder)) := by
  cases s
  · exact List.perm_middle
  · exact List.perm_middle.trans (List.perm_append_comm.cons x)

/-- The nodes of the whole tree are those below, above and beside a place. -/
theorem inorder_plug_perm (k : List (Frame α)) (t : ColorTree α) :
    (plug k t).inorder.Perm (t.inorder ++ frameLabels k) := by
  induction k generalizing t with
  | nil => rw [frameLabels, List.append_nil, plug]
  | cons f k ih =>
    have hfill : ((f.fill t).inorder ++ frameLabels k).Perm
        (f.label :: (t.inorder ++ f.sibling.inorder) ++ frameLabels k) :=
      inorder_branch_perm.append_right _
    rw [List.cons_append, List.append_assoc] at hfill
    exact ((ih _).trans hfill).trans List.perm_middle.symm

/-- Every node of a tree is at a place of it. -/
theorem exists_plug_of_mem {x : α} (h : x ∈ t.inorder) :
    ∃ k c l r, t = plug k (node c l x r) := by
  induction t with
  | nil => cases h
  | node c l y r ihl ihr =>
    rcases List.mem_append.mp h with hl | hr
    · obtain ⟨k, c', l', r', rfl⟩ := ihl hl
      exact ⟨k ++ [⟨.left, c, y, r⟩], c', l', r', by rw [plug_append]; rfl⟩
    · rcases List.mem_cons.mp hr with rfl | hr
      · exact ⟨[], c, l, r, rfl⟩
      · obtain ⟨k, c', l', r', rfl⟩ := ihr hr
        exact ⟨k ++ [⟨.right, c, y, l⟩], c', l', r', by rw [plug_append]; rfl⟩

/-- The place of a node is determined by what is before and after it. -/
theorem exists_plug_of_split {x : α} {xs ys : List α} (hnodup : t.inorder.Nodup)
    (hl : t.inorder = xs ++ x :: ys) : ∃ k c l r, t = plug k (node c l x r) ∧
      before k ++ l.inorder = xs ∧ r.inorder ++ after k = ys := by
  obtain ⟨k, c, l, r, rfl⟩ := exists_plug_of_mem (t := t) (x := x) (by simp [hl])
  have hsplit : before k ++ l.inorder ++ x :: (r.inorder ++ after k) = xs ++ x :: ys := by
    rw [← hl, inorder_plug]
    simp [inorder]
  rw [hl, ← hsplit] at hnodup
  have hnotin := List.nodup_middle.mp hnodup
  rw [List.nodup_cons, List.mem_append, not_or] at hnotin
  obtain ⟨hxs, -, hys⟩ := (List.append_cons_inj_of_notMem hnotin.1.1 hnotin.1.2).mp hsplit
  exact ⟨k, c, l, r, rfl, hxs, hys⟩

/-- The frames on the way to the first node. -/
theorem exists_leftmost (h : t ≠ nil) : ∃ k c x r, t = plug k (node c nil x r) ∧
    ∀ f ∈ k, f.side = .left := by
  induction t with
  | nil => exact absurd rfl h
  | node c l y r ihl _ =>
    by_cases hl : l = nil
    · subst hl
      exact ⟨[], c, y, r, rfl, by simp⟩
    · obtain ⟨k, c', x, r', rfl, hk⟩ := ihl hl
      refine ⟨k ++ [⟨.left, c, y, r⟩], c', x, r', by rw [plug_append]; rfl, ?_⟩
      intro f hf
      rcases List.mem_append.mp hf with hf | hf
      · exact hk f hf
      · rw [List.mem_singleton.mp hf]

theorem before_of_left (h : ∀ f ∈ k, f.side = .left) : before k = [] := by
  induction k with
  | nil => rfl
  | cons f k ih =>
    unfold before
    rw [h f List.mem_cons_self]
    exact ih fun g hg => h g (List.mem_cons_of_mem f hg)

/-! ### What the frames have to say -/

/-- The colour of the node above; above the root it counts as red, so that the root is black. -/
def headColor : List (Frame α) → Color
  | [] => .red
  | f :: _ => f.color

/-- The frames are those of a red-black tree that has trees of black height `n` in its place. -/
def FramesOk : List (Frame α) → Nat → Prop
  | [], _ => True
  | f :: k, n => f.sibling.NoRedRed ∧ f.sibling.HasHeight n ∧
      (f.color = .red → f.sibling.color = .black ∧ headColor k = .black) ∧
      FramesOk k (n + f.color.height)

/-- A tree is red-black if at some place the tree below and the frames above are. -/
theorem isRedBlack_plug_iff : (plug k t).IsRedBlack ↔
    ∃ n, t.NoRedRed ∧ t.HasHeight n ∧ (t.color = .red → headColor k = .black) ∧ FramesOk k n := by
  induction k generalizing t with
  | nil =>
    constructor
    · rintro ⟨hroot, hred, n, hn⟩
      refine ⟨n, hred, hn, fun h => ?_, trivial⟩
      rw [show t.color = .black from hroot] at h
      cases h
    · rintro ⟨n, hred, hn, hroot, -⟩
      exact ⟨Color.ne_red.mp fun h => (nomatch hroot h), hred, n, hn⟩
  | cons f k ih =>
    simp only [plug, ih, Frame.fill, FramesOk, noRedRed_branch, hasHeight_branch, color_branch,
      headColor]
    constructor
    · rintro ⟨_, ⟨hcolor, ht, hsib⟩, ⟨h, rfl, hht, hhsib⟩, hhead, hok⟩
      refine ⟨h, ht, hht, fun hr => ?_, hsib, hhsib, fun hr => ⟨(hcolor hr).2, hhead hr⟩, hok⟩
      refine Color.ne_red.mp fun hf => ?_
      rw [(hcolor hf).1] at hr
      cases hr
    · rintro ⟨h, ht, hht, hred, hsib, hhsib, hcolor, hok⟩
      refine ⟨_, ⟨fun hf => ⟨?_, (hcolor hf).1⟩, ht, hsib⟩, ⟨h, rfl, hht, hhsib⟩,
        fun hf => (hcolor hf).2, hok⟩
      refine Color.ne_red.mp fun hr => ?_
      rw [hred hr] at hf
      cases hf

/-- What the frames say does not depend on the labels. -/
theorem framesOk_relabel {s : Side} {a : ColorTree α} (x y : α) :
    headColor (k' ++ ⟨s, c, x, a⟩ :: k) = headColor (k' ++ ⟨s, c, y, a⟩ :: k) ∧
      (FramesOk (k' ++ ⟨s, c, x, a⟩ :: k) n ↔ FramesOk (k' ++ ⟨s, c, y, a⟩ :: k) n) := by
  induction k' generalizing n with
  | nil => exact ⟨rfl, Iff.rfl⟩
  | cons f k' ih =>
    refine ⟨rfl, ?_⟩
    simp only [List.cons_append, FramesOk, (ih (n := n)).1, (ih (n := n + f.color.height)).2]

theorem length_le_frameLabels (k : List (Frame α)) : k.length ≤ (frameLabels k).length := by
  induction k with
  | nil => exact Nat.le_refl 0
  | cons f k ih =>
    simp only [frameLabels, List.length_cons, List.length_append]
    omega

/-- A place is not deeper than there are nodes. -/
theorem length_le_inorder (k : List (Frame α)) (t : ColorTree α) :
    k.length ≤ (plug k t).inorder.length := by
  have h := length_le_frameLabels k
  rw [(inorder_plug_perm k t).length_eq, List.length_append]
  omega

end LinuxStm32.Base.RedBlack
