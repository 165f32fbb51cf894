import LinuxStm32.Lib.RbTree

/-!
# The tree that memory holds

When the nodes in memory are those of a tree, and what the operations of `lib/rbtree.c` that
repair a tree do to it: setting a colour and rotating.
-/

namespace LinuxStm32.Lib

open Base RedBlack ColorTree

/-- The address of a node; nodes are aligned to words. -/
structure Addr (p : Ptr) : Prop where
  ne : p ≠ 0#32
  aligned : p &&& ~~~3#32 = p

/-- The address of the root, or `NULL`. -/
def rootPtr : ColorTree Ptr → Ptr
  | nil => 0#32
  | node _ _ p _ => p

/-- The address of the node above a place, or `NULL`. -/
def headPtr : List (Frame Ptr) → Ptr
  | [] => 0#32
  | f :: _ => f.label

/-- The parent's address and the colour in one word. -/
def parentColor (par : Ptr) (c : Color) : BitVec 32 := par ||| colorBit c

/-- A node with the child `near` on the side `s`. -/
def sideNode (s : Side) (pc : BitVec 32) (near far : Ptr) : RbNode :=
  match s with
  | .left => ⟨pc, far, near⟩
  | .right => ⟨pc, near, far⟩

/-- Memory holds a tree whose root has the parent `par`. -/
def TreeAt (m : RbMem) : Ptr → ColorTree Ptr → Prop
  | _, nil => True
  | par, node c l p r => m.node p = sideNode .left (parentColor par c) (rootPtr l) (rootPtr r) ∧
      TreeAt m p l ∧ TreeAt m p r

/-- Memory holds the nodes above and beside a place that points to `p`. -/
def FramesAt (m : RbMem) : Ptr → List (Frame Ptr) → Prop
  | p, [] => m.rbNode = p
  | p, f :: k =>
    m.node f.label = sideNode f.side (parentColor (headPtr k) f.color) p (rootPtr f.sibling) ∧
      TreeAt m f.label f.sibling ∧ FramesAt m f.label k

/-- Memory holds a tree: all pointers to children and to parents are right and no node occurs
twice. -/
structure Rep (m : RbMem) (t : ColorTree Ptr) : Prop where
  root : m.rbNode = rootPtr t
  tree : TreeAt m 0#32 t
  nodup : t.inorder.Nodup
  addr : ∀ p ∈ t.inorder, Addr p

/-- The same, looked at from a place. -/
structure Place (m : RbMem) (k : List (Frame Ptr)) (t : ColorTree Ptr) : Prop where
  frames : FramesAt m (rootPtr t) k
  tree : TreeAt m (headPtr k) t
  nodup : (t.inorder ++ frameLabels k).Nodup
  addr : ∀ p ∈ t.inorder ++ frameLabels k, Addr p

variable {m : RbMem} {k : List (Frame Ptr)} {t a b d : ColorTree Ptr} {s : Side} {c c' : Color}
  {p q par x y : Ptr} {f : Frame Ptr} {g : RbNode → RbNode} {pc : BitVec 32}

theorem treeAt_branch : TreeAt m par (branch s c p a b) ↔
    m.node p = sideNode s (parentColor par c) (rootPtr a) (rootPtr b) ∧
      TreeAt m p a ∧ TreeAt m p b := by
  cases s
  · rfl
  · simp only [branch, TreeAt, sideNode, and_comm]

@[simp] theorem rootPtr_branch : rootPtr (branch s c p a b) = p := by
  cases s <;> rfl

theorem rep_plug_iff : Rep m (plug k t) ↔ Place m k t := by
  have hperm := inorder_plug_perm k t
  have hmem : (∀ p ∈ (plug k t).inorder, Addr p) ↔ ∀ p ∈ t.inorder ++ frameLabels k, Addr p := by
    simp only [hperm.mem_iff]
  have hparts : (m.rbNode = rootPtr (plug k t) ∧ TreeAt m 0#32 (plug k t)) ↔
      FramesAt m (rootPtr t) k ∧ TreeAt m (headPtr k) t := by
    clear hperm hmem
    induction k generalizing t with
    | nil => rfl
    | cons f k ih =>
      simp only [plug, ih, Frame.fill, rootPtr_branch, treeAt_branch, FramesAt, headPtr]
      tauto
  constructor
  · intro h
    obtain ⟨hframes, htree⟩ := hparts.mp ⟨h.root, h.tree⟩
    exact ⟨hframes, htree, hperm.nodup_iff.mp h.nodup, hmem.mp h.addr⟩
  · intro h
    obtain ⟨hroot, htree⟩ := hparts.mpr ⟨h.frames, h.tree⟩
    exact ⟨hroot, htree, hperm.nodup_iff.mpr h.nodup, hmem.mpr h.addr⟩

/-- Moving to the place of a child. -/
theorem place_cons_iff : Place m (f :: k) t ↔ Place m k (f.fill t) := by
  rw [← rep_plug_iff, ← rep_plug_iff]
  rfl

theorem place_near_iff : Place m k (branch s c p a b) ↔ Place m (⟨s, c, p, b⟩ :: k) a := by
  rw [place_cons_iff, Frame.fill]

theorem place_far_iff : Place m k (branch s c p a b) ↔ Place m (⟨s.flip, c, p, a⟩ :: k) b := by
  rw [place_cons_iff, Frame.fill, branch_flip]

/-! ### The word shared by the parent and the colour -/

section Word

variable (h : par &&& ~~~3#32 = par) (c c' : Color)

include h

theorem and_of_aligned {w : BitVec 32} (hw : ~~~3#32 &&& w = 0#32) : par &&& w = 0#32 := by
  rw [← h, BitVec.and_assoc, hw, BitVec.and_zero]

theorem parentColor_parent : parentColor par c &&& ~~~3#32 = par := by
  have hc : colorBit c &&& ~~~3#32 = 0#32 := by cases c <;> decide
  rw [parentColor, BitVec.and_or_distrib_right, h, hc, BitVec.or_zero]

theorem parentColor_color : parentColor par c &&& 1#32 = colorBit c := by
  have hc : colorBit c &&& 1#32 = colorBit c := by cases c <;> decide
  rw [parentColor, BitVec.and_or_distrib_right, and_of_aligned h (by decide), hc, BitVec.zero_or]

theorem parentColor_setParent (q : Ptr) :
    (parentColor par c &&& 3#32) ||| q = parentColor q c := by
  have hc : colorBit c &&& 3#32 = colorBit c := by cases c <;> decide
  rw [parentColor, BitVec.and_or_distrib_right, and_of_aligned h (by decide), hc, BitVec.zero_or,
    BitVec.or_comm, parentColor]

theorem parentColor_setRed : parentColor par c &&& ~~~1#32 = parentColor par .red := by
  have hc : colorBit c &&& ~~~1#32 = 0#32 := by cases c <;> decide
  have hpar : par &&& ~~~1#32 = par := by
    rw [← h, BitVec.and_assoc, show ~~~3#32 &&& ~~~1#32 = ~~~3#32 by decide]
  rw [parentColor, BitVec.and_or_distrib_right, hpar, hc, parentColor, colorBit]
  rfl

theorem parentColor_setColor :
    (parentColor par c &&& ~~~1#32) ||| colorBit c' = parentColor par c' := by
  rw [parentColor_setRed h, parentColor, parentColor, BitVec.or_assoc]
  congr 1
  exact BitVec.zero_or

omit h in
theorem parentColor_setBlack : parentColor par c ||| 1#32 = parentColor par .black := by
  have hc : colorBit c ||| 1#32 = 1#32 := by cases c <;> decide
  rw [parentColor, BitVec.or_assoc, hc]
  rfl

end Word

/-! ### Writing to one node -/

@[simp] theorem modify_node_self : (m.modify p g).node p = g (m.node p) := by
  simp [RbMem.modify]

theorem modify_node_of_ne (h : x ≠ p) : (m.modify p g).node x = m.node x := by
  simp [RbMem.modify, h]

theorem TreeAt.congr {m' : RbMem} (h : TreeAt m par t)
    (hsame : ∀ p ∈ t.inorder, m'.node p = m.node p) : TreeAt m' par t := by
  induction t generalizing par with
  | nil => trivial
  | node c l p r ihl ihr =>
    obtain ⟨hp, hl, hr⟩ := h
    simp only [inorder, List.mem_append, List.mem_cons] at hsame
    exact ⟨(hsame p (by simp)).trans hp, ihl hl fun x hx => hsame x (.inl hx),
      ihr hr fun x hx => hsame x (.inr (.inr hx))⟩

theorem FramesAt.congr {m' : RbMem} (h : FramesAt m p k) (hroot : m'.rbNode = m.rbNode)
    (hsame : ∀ p ∈ frameLabels k, m'.node p = m.node p) : FramesAt m' p k := by
  induction k generalizing p with
  | nil => exact hroot.trans h
  | cons f k ih =>
    obtain ⟨hp, hsib, hk⟩ := h
    simp only [frameLabels, List.mem_cons, List.mem_append] at hsame
    exact ⟨(hsame _ (.inl rfl)).trans hp, hsib.congr fun x hx => hsame x (.inr (.inl hx)),
      ih hk fun x hx => hsame x (.inr (.inr hx))⟩

theorem TreeAt.modify (h : TreeAt m par t) (hp : p ∉ t.inorder) : TreeAt (m.modify p g) par t :=
  h.congr fun _ hx => modify_node_of_ne fun hxp => hp (hxp ▸ hx)

theorem FramesAt.modify (h : FramesAt m q k) (hp : p ∉ frameLabels k) :
    FramesAt (m.modify p g) q k :=
  h.congr rfl fun _ hx => modify_node_of_ne fun hxp => hp (hxp ▸ hx)

@[simp] theorem child_sideNode : (sideNode s pc x y).child s = x := by
  cases s <;> rfl

@[simp] theorem child_flip_sideNode : (sideNode s pc x y).child s.flip = y := by
  cases s <;> rfl

@[simp] theorem setChild_sideNode : (sideNode s pc x y).setChild s p = sideNode s pc p y := by
  cases s <;> rfl

@[simp] theorem setChild_flip_sideNode :
    (sideNode s pc x y).setChild s.flip p = sideNode s pc x p := by
  cases s <;> rfl

@[simp] theorem rbParentColor_sideNode : (sideNode s pc x y).rbParentColor = pc := by
  cases s <;> rfl

/-- A node with another parent and colour. -/
@[simp] theorem recolor_sideNode {pc' : BitVec 32} :
    { sideNode s pc x y with rbParentColor := pc' } = sideNode s pc' x y := by
  cases s <;> rfl

theorem load_eq (h : p ≠ 0#32) : load p m = some (m.node p, m) := if_neg h

theorem update_eq (h : p ≠ 0#32) : update p g m = some ((), m.modify p g) := if_neg h

theorem rbChild_eq (h : p ≠ 0#32) : rbChild s p m = some ((m.node p).child s, m) := by
  change (load p m).bind _ = _
  rw [load_eq h]
  rfl

theorem rbParent_eq (h : p ≠ 0#32) :
    rbParent p m = some ((m.node p).rbParentColor &&& ~~~3#32, m) := by
  change (load p m).bind _ = _
  rw [load_eq h]
  rfl

theorem rbColor_eq (h : p ≠ 0#32) :
    rbColor p m = some ((m.node p).rbParentColor &&& 1#32, m) := by
  change (load p m).bind _ = _
  rw [load_eq h]
  rfl

/-! ### Reading a node at a place -/

theorem rootPtr_mem_or (t : ColorTree Ptr) : rootPtr t = 0#32 ∨ rootPtr t ∈ t.inorder := by
  cases t with
  | nil => exact .inl rfl
  | node c l p r => exact .inr (by simp [rootPtr, inorder])

theorem headPtr_mem_or (k : List (Frame Ptr)) : headPtr k = 0#32 ∨ headPtr k ∈ frameLabels k := by
  cases k with
  | nil => exact .inl rfl
  | cons f k => exact .inr (by simp [headPtr, frameLabels])

theorem ne_rootPtr (h₀ : x ≠ 0#32) (h : x ∉ t.inorder) : x ≠ rootPtr t := by
  rintro rfl
  exact (rootPtr_mem_or t).elim h₀ h

theorem ne_headPtr (h₀ : x ≠ 0#32) (h : x ∉ frameLabels k) : x ≠ headPtr k := by
  rintro rfl
  exact (headPtr_mem_or k).elim h₀ h

theorem Place.head_aligned (h : Place m k t) : headPtr k &&& ~~~3#32 = headPtr k := by
  rcases headPtr_mem_or k with hk | hk
  · rw [hk]
    decide
  · exact (h.addr _ (List.mem_append_right _ hk)).aligned

theorem mem_branch : x ∈ (branch s c p a b).inorder ↔ x = p ∨ x ∈ a.inorder ∨ x ∈ b.inorder := by
  rw [inorder_branch_perm.mem_iff, List.mem_cons, List.mem_append]

section Branch

variable (h : Place m k (branch s c p a b))

include h

theorem Place.addr_root : Addr p :=
  h.addr p (List.mem_append_left _ (mem_branch.mpr (.inl rfl)))

theorem Place.node_eq :
    m.node p = sideNode s (parentColor (headPtr k) c) (rootPtr a) (rootPtr b) :=
  (treeAt_branch.mp h.tree).1

theorem Place.parent : rbParent p m = some (headPtr k, m) := by
  rw [rbParent_eq h.addr_root.ne, h.node_eq, rbParentColor_sideNode,
    parentColor_parent h.head_aligned]

theorem Place.child : rbChild s p m = some (rootPtr a, m) := by
  rw [rbChild_eq h.addr_root.ne, h.node_eq, child_sideNode]

theorem Place.child_flip : rbChild s.flip p m = some (rootPtr b, m) := by
  rw [rbChild_eq h.addr_root.ne, h.node_eq, child_flip_sideNode]

theorem Place.color_eq : rbColor p m = some (colorBit c, m) := by
  rw [rbColor_eq h.addr_root.ne, h.node_eq, rbParentColor_sideNode,
    parentColor_color h.head_aligned]

theorem Place.isRed : rbIsRed p m = some (decide (c = .red), m) := by
  change (rbColor p m).bind _ = _
  rw [h.color_eq]
  cases c <;> rfl

end Branch

theorem Place.testRed (h : Place m k t) :
    rbTestRed (rootPtr t) m = some (decide (t.color = .red), m) := by
  cases t with
  | nil => rfl
  | node c l p r =>
    have hp : Place m k (branch .left c p l r) := h
    unfold rbTestRed
    rw [rootPtr, if_neg hp.addr_root.ne]
    exact hp.isRed

theorem root_mem_of_framesAt (h : FramesAt m p (f :: k)) : m.rbNode ∈ frameLabels (f :: k) := by
  induction k generalizing f p with
  | nil =>
    rw [show m.rbNode = f.label from h.2.2]
    simp [frameLabels]
  | cons g k ih =>
    have hmem := ih h.2.2
    rw [frameLabels]
    simp [hmem]

/-- Below the root there is not the root. -/
theorem Place.ne_root (h : Place m (f :: k) t) : rootPtr t ≠ m.rbNode := by
  have hmem := root_mem_of_framesAt h.frames
  have hne := (h.addr _ (List.mem_append_right _ hmem)).ne
  exact (ne_rootPtr hne fun ht => (List.nodup_append.mp h.nodup).2.2 _ ht _ hmem rfl).symm

/-! ### Setting a colour -/

theorem nodup_branch : (branch s c p a b).inorder.Nodup ↔
    p ∉ a.inorder ∧ p ∉ b.inorder ∧ a.inorder.Nodup ∧ b.inorder.Nodup ∧
      ∀ x ∈ a.inorder, ∀ y ∈ b.inorder, x ≠ y := by
  rw [inorder_branch_perm.nodup_iff, List.nodup_cons, List.mem_append, List.nodup_append, not_or,
    and_assoc]

/-- Different children have different addresses. -/
theorem Place.child_ne (h : Place m k (branch s c p a b)) (ha : a ≠ nil) :
    rootPtr a ≠ rootPtr b := by
  have hmem : rootPtr a ∈ a.inorder := by
    cases a with
    | nil => exact absurd rfl ha
    | node c l x r => simp [rootPtr, inorder]
  have h₀ := (h.addr _ (List.mem_append_left _ (mem_branch.mpr (.inr (.inl hmem))))).ne
  have hnodup := (List.nodup_append.mp h.nodup).1
  rw [nodup_branch] at hnodup
  exact ne_rootPtr h₀ fun hb => hnodup.2.2.2.2 _ hmem _ hb rfl

theorem Place.child_ne_of_far (h : Place m k (branch s c p a b)) (hb : b ≠ nil) :
    rootPtr a ≠ rootPtr b := by
  rw [← branch_flip] at h
  exact (h.child_ne hb).symm

/-- Testing the left child tells on which side a tree is. -/
theorem Place.left_child (h : Place m k (branch s c p a b)) (hne : rootPtr a ≠ rootPtr b) :
    ∃ q, rbChild .left p m = some (q, m) ∧ (rootPtr a = q ↔ s = .left) := by
  cases s with
  | left => exact ⟨_, h.child, by simp⟩
  | right => exact ⟨_, h.child_flip, by simp [hne]⟩

theorem Place.root_ne (h : Place m k t) (ht : t ≠ nil) : rootPtr t ≠ 0#32 := by
  cases t with
  | nil => exact absurd rfl ht
  | node c l p r => exact (Place.addr_root (s := .left) h).ne

theorem Place.parent_root (h : Place m k t) (ht : t ≠ nil) :
    rbParent (rootPtr t) m = some (headPtr k, m) := by
  cases t with
  | nil => exact absurd rfl ht
  | node c l p r => exact Place.parent (s := .left) h

/-- A write that changes only the colour of the node at a place. -/
theorem Place.recolor (h : Place m k (branch s c p a b))
    (hg : g (m.node p) = sideNode s (parentColor (headPtr k) c') (rootPtr a) (rootPtr b)) :
    Runs (update p g) m fun _ m' => Place m' k (branch s c' p a b) := by
  have hperm : (branch s c p a b).inorder = (branch s c' p a b).inorder := inorder_recolor c'
  obtain ⟨-, ha, hb⟩ := treeAt_branch.mp h.tree
  have hnodup := h.nodup
  rw [List.nodup_append, nodup_branch] at hnodup
  obtain ⟨⟨hpa, hpb, -⟩, -, hpk⟩ := hnodup
  refine ⟨(), _, update_eq h.addr_root.ne, ?_, ?_, ?_, ?_⟩
  · have hp : p ∉ frameLabels k := fun hp => hpk p (mem_branch.mpr (.inl rfl)) p hp rfl
    simpa using h.frames.modify hp
  · exact treeAt_branch.mpr ⟨modify_node_self.trans hg, ha.modify hpa, hb.modify hpb⟩
  · exact hperm ▸ h.nodup
  · exact hperm ▸ h.addr

section Recolor

variable (h : Place m k (branch s c p a b))

include h

theorem Place.setRed : Runs (rbSetRed p) m fun _ m' => Place m' k (branch s .red p a b) := by
  apply h.recolor
  rw [h.node_eq, rbParentColor_sideNode, parentColor_setRed h.head_aligned, recolor_sideNode]

theorem Place.setBlack : Runs (rbSetBlack p) m fun _ m' => Place m' k (branch s .black p a b) := by
  apply h.recolor
  rw [h.node_eq, rbParentColor_sideNode, parentColor_setBlack, recolor_sideNode]

theorem Place.setColor (c' : Color) : Runs (rbSetColor p (colorBit c')) m fun _ m' =>
    Place m' k (branch s c' p a b) := by
  apply h.recolor
  rw [h.node_eq, rbParentColor_sideNode, parentColor_setColor h.head_aligned, recolor_sideNode]

end Recolor

/-! ### Moving a tree to another parent -/

/-- Memory differs only at one node. -/
def SameBut (m m' : RbMem) (p : Ptr) : Prop := ∀ x, x ≠ p → m'.node x = m.node x

/-- `if (child) rb_set_parent(child, parent)`. -/
theorem TreeAt.adopt (h : TreeAt m par t) (haligned : par &&& ~~~3#32 = par)
    (hnodup : t.inorder.Nodup) (haddr : ∀ p ∈ t.inorder, Addr p) (q : Ptr) :
    Runs (rbAdopt (rootPtr t) q) m fun _ m' =>
      TreeAt m' q t ∧ SameBut m m' (rootPtr t) ∧ m'.rbNode = m.rbNode := by
  cases t with
  | nil => exact ⟨(), m, rfl, trivial, fun _ _ => rfl, rfl⟩
  | node c l p r =>
    obtain ⟨hp, hl, hr⟩ := h
    have hne : p ≠ 0#32 := (haddr p (by simp [inorder])).ne
    obtain ⟨hpl, hpr, -⟩ := nodup_branch (s := .left).mp hnodup
    refine ⟨(), m.modify p fun n => { n with rbParentColor := (n.rbParentColor &&& 3#32) ||| q },
      ?_, ⟨?_, hl.modify hpl, hr.modify hpr⟩, fun x hx => modify_node_of_ne hx, rfl⟩
    · unfold rbAdopt
      rw [rootPtr, if_neg hne]
      exact update_eq hne
    · rw [modify_node_self, hp, rbParentColor_sideNode, parentColor_setParent haligned,
        recolor_sideNode]

/-- The pointer in the node above a place is moved. -/
theorem FramesAt.setChild (h : FramesAt m p (f :: k)) (hnodup : (frameLabels (f :: k)).Nodup)
    (q : Ptr) : FramesAt (m.modify f.label (·.setChild f.side q)) q (f :: k) := by
  obtain ⟨hp, hsibling, hk⟩ := h
  rw [frameLabels, List.nodup_cons, List.mem_append, not_or] at hnodup
  refine ⟨?_, hsibling.modify hnodup.1.1, hk.modify hnodup.1.2⟩
  rw [modify_node_self, hp, setChild_sideNode]

/-- The pointer to a place is moved. -/
theorem FramesAt.replaceChild (h : FramesAt m p k) (hnodup : (frameLabels k).Nodup)
    (haddr : ∀ x ∈ frameLabels k, Addr x) (hzero : p ≠ 0#32) (hout : p ∉ frameLabels k) (s : Side)
    (q : Ptr) : Runs (rbReplaceChild s (headPtr k) p q) m fun _ m' =>
      FramesAt m' q k ∧ SameBut m m' (headPtr k) := by
  cases k with
  | nil => exact ⟨(), { m with rbNode := q }, rfl, rfl, fun _ _ => rfl⟩
  | cons f k =>
    have hne : f.label ≠ 0#32 := (haddr f.label (by simp [frameLabels])).ne
    have hsib : p ≠ rootPtr f.sibling := by
      rcases rootPtr_mem_or f.sibling with h₀ | h₀
      · rwa [h₀]
      · rintro rfl
        exact hout (by simp [frameLabels, h₀])
    have hrun : rbReplaceChild s f.label p q m =
        some ((), m.modify f.label (·.setChild f.side q)) := by
      unfold rbReplaceChild
      rw [if_neg hne]
      change (rbChild s f.label m).bind _ = _
      rw [rbChild_eq hne, h.1]
      by_cases hs : s = f.side
      · rw [hs, child_sideNode]
        change (if p = p then rbSetChild f.side f.label q else _) m = _
        rw [if_pos rfl]
        exact update_eq hne
      · rw [Side.eq_flip_of_ne hs, child_flip_sideNode]
        change (if p = _ then _ else rbSetChild f.side.flip.flip f.label q) m = _
        rw [if_neg hsib, Side.flip_flip]
        exact update_eq hne
    exact ⟨(), _, hrun, h.setChild hnodup q, fun x hx => modify_node_of_ne hx⟩

/-! ### Rotation -/

/-- A rotation turns the tree at its place and changes nothing else. -/
theorem Place.rotate (h : Place m k (branch s c p a (branch s c' q b d))) :
    Runs (rbRotate s p) m fun _ m' => Place m' k (branch s c' q (branch s c p a b) d) := by
  obtain ⟨hp, ha, hq⟩ := treeAt_branch.mp h.tree
  obtain ⟨hq, hb, hd⟩ := treeAt_branch.mp hq
  have haddr := h.addr
  simp only [List.mem_append, mem_branch] at haddr
  have hpa : Addr p := haddr p (by simp)
  have hqa : Addr q := haddr q (by simp)
  have hnodup := h.nodup
  simp only [List.nodup_append, nodup_branch, mem_branch, not_or] at hnodup
  obtain ⟨⟨hpA, ⟨hpq, hpB, hpD⟩, -, ⟨hqB, hqD, hB, -, hBD⟩, hA⟩, hK, hout⟩ := hnodup
  have hpK : p ∉ frameLabels k := fun hx => hout p (.inl rfl) p hx rfl
  have hqK : q ∉ frameLabels k := fun hx => hout q (.inr (.inr (.inl rfl))) q hx rfl
  -- what every write keeps away from
  have hapart (x : Ptr) (hx : x ∈ a.inorder ∨ x ∈ d.inorder) :
      x ≠ p ∧ x ≠ q ∧ x ≠ rootPtr b ∧ x ≠ headPtr k := by
    have h₀ : x ≠ 0#32 := (haddr x (by tauto)).ne
    refine ⟨?_, ?_, ne_rootPtr h₀ ?_, ne_headPtr h₀ ?_⟩ <;> grind
  have hapartB (x : Ptr) (hx : x ∈ b.inorder) : x ≠ p ∧ x ≠ q ∧ x ≠ headPtr k := by
    have h₀ : x ≠ 0#32 := (haddr x (by tauto)).ne
    refine ⟨?_, ?_, ne_headPtr h₀ ?_⟩ <;> grind
  have hapartK (x : Ptr) (hx : x ∈ frameLabels k) : x ≠ p ∧ x ≠ q ∧ x ≠ rootPtr b := by
    have h₀ : x ≠ 0#32 := (haddr x (by tauto)).ne
    refine ⟨?_, ?_, ne_rootPtr h₀ ?_⟩ <;> grind
  have hpb := ne_rootPtr hpa.ne hpB
  have hqb := ne_rootPtr hqa.ne hqB
  have hpk := ne_headPtr hpa.ne hpK
  have hqk := ne_headPtr hqa.ne hqK
  unfold rbRotate
  refine runs_bind_of_eq h.child_flip ?_
  refine runs_bind_of_eq h.parent ?_
  rw [rootPtr_branch]
  refine runs_bind_of_eq (rbChild_eq hqa.ne) ?_
  rw [hq, child_sideNode]
  refine runs_bind_of_eq (update_eq hpa.ne) ?_
  have hb₁ : TreeAt (m.modify p (·.setChild s.flip (rootPtr b))) q b := hb.modify hpB
  refine (hb₁.adopt hqa.aligned hB (fun x hx => haddr x (by tauto)) p).then ?_
  rintro - m₂ ⟨hb₂, hsame₂, hroot₂⟩
  refine runs_bind_of_eq (update_eq hqa.ne) ?_
  refine runs_bind_of_eq (update_eq hqa.ne) ?_
  generalize hm₄ : RbMem.modify (m₂.modify q _) q _ = m₄
  have hroot₄ : m₄.rbNode = m.rbNode := by
    rw [← hm₄]
    exact hroot₂
  have hsame₄ (x : Ptr) (hxp : x ≠ p) (hxq : x ≠ q) (hxb : x ≠ rootPtr b) :
      m₄.node x = m.node x := by
    rw [← hm₄, modify_node_of_ne hxq, modify_node_of_ne hxq, hsame₂ x hxb, modify_node_of_ne hxp]
  have hk₄ : FramesAt m₄ p k := by
    have hframes := h.frames
    rw [rootPtr_branch] at hframes
    exact hframes.congr hroot₄ fun x hx =>
      hsame₄ x (hapartK x hx).1 (hapartK x hx).2.1 (hapartK x hx).2.2
  refine (hk₄.replaceChild hK (fun x hx => haddr x (.inr hx)) hpa.ne hpK s q).then ?_
  rintro - m₅ ⟨hk₅, hsame₅⟩
  have hp₅ : m₅.node p = sideNode s (parentColor (headPtr k) c) (rootPtr a) (rootPtr b) := by
    rw [hsame₅ p hpk, ← hm₄, modify_node_of_ne hpq, modify_node_of_ne hpq, hsame₂ p hpb,
      modify_node_self, hp, setChild_flip_sideNode]
  have hq₅ : m₅.node q = sideNode s (parentColor (headPtr k) c') p (rootPtr d) := by
    rw [hsame₅ q hqk, ← hm₄, modify_node_self, modify_node_self, hsame₂ q hqb,
      modify_node_of_ne (Ne.symm hpq), hq, setChild_sideNode, rbParentColor_sideNode,
      parentColor_setParent hpa.aligned, recolor_sideNode]
  have hsame (x : Ptr) (hx : x ∈ a.inorder ∨ x ∈ d.inorder) : m₅.node x = m.node x := by
    obtain ⟨hxp, hxq, hxb, hxk⟩ := hapart x hx
    exact (hsame₅ x hxk).trans (hsame₄ x hxp hxq hxb)
  refine ⟨(), _, update_eq hpa.ne, ?_, ?_, ?_, ?_⟩
  · rw [rootPtr_branch]
    exact hk₅.modify hpK
  · refine treeAt_branch.mpr ⟨?_, treeAt_branch.mpr ⟨?_, ?_, ?_⟩, ?_⟩
    · rw [modify_node_of_ne (Ne.symm hpq), rootPtr_branch]
      exact hq₅
    · rw [modify_node_self, hp₅, rbParentColor_sideNode, parentColor_setParent h.head_aligned,
        recolor_sideNode]
    · exact (ha.congr fun x hx => hsame x (.inl hx)).modify hpA
    · refine (hb₂.congr fun x hx => ?_).modify hpB
      obtain ⟨hxp, hxq, hxk⟩ := hapartB x hx
      rw [hsame₅ x hxk, ← hm₄, modify_node_of_ne hxq, modify_node_of_ne hxq]
    · exact (hd.congr fun x hx => hsame x (.inr hx)).modify hpD
  · rw [← inorder_rotate]
    exact h.nodup
  · rw [← inorder_rotate]
    exact h.addr

end LinuxStm32.Lib
