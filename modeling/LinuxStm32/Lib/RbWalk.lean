import LinuxStm32.Lib.RbErase

/-!
# Walking through a tree

`rb_first` and `rb_next`, and the results on `lib/rbtree.c` as its callers rely on them.
-/

namespace LinuxStm32.Lib

open Base RedBlack ColorTree

variable {m : RbMem} {k : List (Frame Ptr)} {t l r : ColorTree Ptr} {c : Color} {p : Ptr}
  {fuel : Nat}

/-- Going down to the left from a tree finds its first node. -/
theorem Place.first (h : Place m k t) (hne : t ≠ nil) (hfuel : t.inorder.length < fuel) :
    Runs (loopM rbLeftRound fuel (rootPtr t)) m fun q m' =>
      q = t.inorder.headD 0#32 ∧ m' = m := by
  obtain ⟨k', c, x, r, rfl, hleft⟩ := exists_leftmost hne
  have hlen := length_le_inorder k' (node c nil x r)
  refine (h.leftmost hleft (by omega)).imp ?_
  rintro q m' ⟨rfl, rfl⟩
  rw [inorder_leftmost hleft]
  exact ⟨rfl, rfl⟩

/-- `rb_first` returns the first node, or `NULL`. -/
theorem first_spec (h : Rep m t) (hfuel : t.inorder.length < fuel) :
    Runs (rbFirst fuel) m fun q m' => q = t.inorder.headD 0#32 ∧ m' = m := by
  have hplace : Place m [] t := rep_plug_iff.mp h
  unfold rbFirst
  refine runs_read (a := m.rbNode) rfl ?_
  rw [h.root]
  by_cases hne : t = nil
  · subst hne
    rw [rootPtr, if_pos rfl]
    exact runs_pure ⟨rfl, rfl⟩
  · rw [if_neg (hplace.root_ne hne)]
    exact hplace.first hne hfuel

/-- Going up while coming from the right finds the node after a tree. -/
theorem Place.up (h : Place m k t) (hne : t ≠ nil) (hfuel : k.length < fuel) :
    Runs (loopM rbUpRound fuel (rootPtr t)) m fun q m' =>
      q = (after k).headD 0#32 ∧ m' = m := by
  refine runs_loopM (fun n q m' => m' = m ∧ ∃ k₁ t₁, Place m k₁ t₁ ∧ t₁ ≠ nil ∧ q = rootPtr t₁ ∧
    after k₁ = after k ∧ n = k₁.length) ?_ ⟨rfl, k, t, h, hne, rfl, rfl, rfl⟩ hfuel
  rintro n q m' ⟨hm, k₁, t₁, h₁, hne₁, rfl, hafter, rfl⟩
  rw [hm, ← hafter]
  unfold rbUpRound
  refine runs_bind_of_eq (h₁.parent_root hne₁) ?_
  cases k₁ with
  | nil =>
    rw [headPtr, if_pos rfl]
    exact runs_pure ⟨rfl, rfl⟩
  | cons f k₂ =>
    obtain ⟨s, c, x, b⟩ := f
    have hp := place_near_iff.mpr h₁
    rw [headPtr, if_neg hp.addr_root.ne]
    cases s with
    | left =>
      refine runs_bind_of_eq hp.child_flip ?_
      rw [if_neg (hp.child_ne hne₁)]
      exact runs_pure ⟨rfl, rfl⟩
    | right =>
      refine runs_bind_of_eq hp.child ?_
      rw [if_pos rfl]
      exact runs_pure ⟨k₂.length, Nat.lt_succ_self _, rfl, k₂, _, hp, node_ne_nil, rfl, rfl, rfl⟩

/-- `rb_next` returns the node that follows, or `NULL`. -/
theorem next_spec (h : Place m k (node c l p r))
    (hfuel : (plug k (node c l p r)).inorder.length < fuel) :
    Runs (rbNext fuel p) m fun q m' => q = (r.inorder ++ after k).headD 0#32 ∧ m' = m := by
  have hp : Place m k (branch .left c p l r) := h
  have hpk : p ∉ frameLabels k := fun hmem =>
    (List.nodup_append.mp h.nodup).2.2 p (by simp [inorder]) p hmem rfl
  have hlen := inorder_plug_perm k (node c l p r)
  have hk := length_le_inorder k (node c l p r)
  unfold rbNext
  refine runs_bind_of_eq hp.parent ?_
  rw [if_neg (ne_headPtr hp.addr_root.ne hpk).symm]
  refine runs_bind_of_eq hp.child_flip ?_
  by_cases hr : r = nil
  · subst hr
    rw [rootPtr, if_neg (by decide)]
    exact h.up node_ne_nil (by omega)
  · have hplace := place_far_iff.mp hp
    rw [if_pos (hplace.root_ne hr)]
    refine (hplace.first hr ?_).imp ?_
    · rw [hlen.length_eq] at hfuel
      simp only [inorder, List.length_append, List.length_cons] at hfuel
      omega
    · rintro q m' ⟨rfl, rfl⟩
      refine ⟨?_, rfl⟩
      cases hri : r.inorder with
      | nil => cases r with
        | nil => exact absurd rfl hr
        | node => simp [inorder] at hri
      | cons => rfl

/-- `rb_first` and then `rb_next` visit the nodes in order. -/
theorem walk_spec (h : Rep m t) (hfuel : t.inorder.length < fuel) :
    Runs (rbWalk fuel) m fun seen m' => seen = t.inorder ∧ m' = m := by
  unfold rbWalk
  refine (first_spec h hfuel).then ?_
  rintro q m' ⟨rfl, hm⟩
  rw [hm]
  refine runs_loopM (fun n (v : Ptr × List Ptr) m' => m' = m ∧ ∃ rest, t.inorder = v.2 ++ rest ∧
    v.1 = rest.headD 0#32 ∧ n = rest.length) ?_ ⟨rfl, t.inorder, rfl, rfl, rfl⟩ hfuel
  rintro n ⟨q, seen⟩ m' ⟨hm, rest, hl, hq, rfl⟩
  dsimp only at hl hq
  rw [hm]
  unfold rbWalkRound
  dsimp only
  cases rest with
  | nil =>
    subst hq
    rw [List.headD, if_pos rfl]
    exact runs_pure ⟨by rw [hl, List.append_nil], rfl⟩
  | cons x rest =>
    change q = x at hq
    subst hq
    have hx := h.addr q (by simp [hl])
    obtain ⟨k, c, l, r, rfl, -, rfl⟩ := exists_plug_of_split h.nodup hl
    rw [if_neg hx.ne]
    refine (next_spec (rep_plug_iff.mp h) hfuel).then ?_
    rintro q' m' ⟨rfl, hm⟩
    rw [hm]
    exact runs_pure ⟨_, Nat.lt_succ_self _, rfl, _, by rw [hl]; simp, rfl, rfl⟩

/-! ### What callers rely on -/

/-- From every red-black tree in memory: linking a new red leaf at any empty place and calling
`rb_insert_color` ends and gives a red-black tree with the leaf at that place in the order;
calling `rb_erase` on any node ends and gives one without it; and `rb_first` followed by `rb_next`
visits the nodes in order and changes nothing. -/
theorem rbtree_correct {t : ColorTree Ptr} (hrep : Rep m t) (hblack : t.IsRedBlack)
    (hfuel : 2 * t.inorder.length + 1 < fuel) :
    (∀ k p, t = plug k nil → Addr p → p ∉ t.inorder → t.inorder = before k ++ after k ∧
      Runs (do
        rbLinkNode p (headPtr k) (linkOf k)
        rbInsertColor fuel p) m fun _ m' =>
        ∃ t', Rep m' t' ∧ t'.IsRedBlack ∧ t'.inorder = before k ++ p :: after k) ∧
    (∀ xs p ys, t.inorder = xs ++ p :: ys → Runs (rbErase fuel p) m fun _ m' =>
      ∃ t', Rep m' t' ∧ t'.IsRedBlack ∧ t'.inorder = xs ++ ys) ∧
    Runs (rbWalk fuel) m fun seen m' => seen = t.inorder ∧ m' = m := by
  refine ⟨?_, fun xs p ys hl => erase_spec hrep hblack hl hfuel, walk_spec hrep (by omega)⟩
  rintro k p rfl hp hnew
  have hlen := length_le_inorder k (nil : ColorTree Ptr)
  refine ⟨?_, insert_spec hrep hblack hp hnew (by omega)⟩
  rw [inorder_plug, inorder, List.append_nil]

/-- Three black nodes and a red one to the right of them, in memory. -/
def fourNodes : RbMem where
  node := fun p =>
    if p = 0x100#32 then ⟨0x201#32, 0#32, 0#32⟩
    else if p = 0x200#32 then ⟨1#32, 0x300#32, 0x100#32⟩
    else if p = 0x300#32 then ⟨0x201#32, 0x400#32, 0#32⟩
    else ⟨0x300#32, 0#32, 0#32⟩
  rbNode := 0x200#32

@[inherit_doc fourNodes] def fourTree : ColorTree Ptr :=
  node .black (node .black nil 0x100#32 nil) 0x200#32
    (node .black nil 0x300#32 (node .red nil 0x400#32 nil))

/-- A fifth node to the right of the red one rotates its parents, and erasing the first one rotates
the root. -/
theorem rbtree_correct_four_nodes :
    (Runs (do
      rbLinkNode 0x500#32 0x400#32 (.child .right 0x400#32)
      rbInsertColor 10 0x500#32) fourNodes fun _ m' =>
      ∃ t', Rep m' t' ∧ t'.IsRedBlack ∧
        t'.inorder = [0x100#32, 0x200#32, 0x300#32, 0x400#32, 0x500#32]) ∧
    (Runs (rbErase 10 0x100#32) fourNodes fun _ m' =>
      ∃ t', Rep m' t' ∧ t'.IsRedBlack ∧ t'.inorder = [0x200#32, 0x300#32, 0x400#32]) ∧
    (rbErase 10 0x100#32 fourNodes).map (·.2.rbNode) = some 0x300#32 := by
  have haddr : ∀ p ∈ fourTree.inorder, Addr p := by
    simp only [fourTree, inorder, List.nil_append, List.cons_append, List.forall_mem_cons]
    refine ⟨⟨?_, ?_⟩, ⟨?_, ?_⟩, ⟨?_, ?_⟩, ⟨?_, ?_⟩, List.forall_mem_nil _⟩ <;> decide
  have hrep : Rep fourNodes fourTree :=
    ⟨rfl, ⟨by decide, ⟨by decide, trivial, trivial⟩, by decide, trivial, by decide, trivial,
      trivial⟩, by decide, haddr⟩
  have hblack : fourTree.IsRedBlack :=
    ⟨rfl, by simp [fourTree, NoRedRed, color], 2, 1, rfl, ⟨0, rfl, rfl, rfl⟩, 0, rfl, rfl, 0, rfl,
      rfl, rfl⟩
  obtain ⟨hinsert, herase, -⟩ := rbtree_correct hrep hblack (show 9 < 10 by decide)
  exact ⟨(hinsert [⟨.right, .red, 0x400#32, nil⟩, ⟨.right, .black, 0x300#32, nil⟩,
    ⟨.right, .black, 0x200#32, node .black nil 0x100#32 nil⟩] 0x500#32 rfl ⟨by decide, by decide⟩
    (by decide)).2, herase [] 0x100#32 _ rfl, by decide⟩

end LinuxStm32.Lib
