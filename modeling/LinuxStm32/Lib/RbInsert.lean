import LinuxStm32.Lib.RbRep

/-!
# Insertion

`rb_insert_color` after `rb_link_node`. The loop looks at a red node; all is well except that its
parent may be red as well.
-/

namespace LinuxStm32.Lib

open Base RedBlack ColorTree

variable {m : RbMem} {k : List (Frame Ptr)} {t a b u n : ColorTree Ptr} {s s' : Side} {c : Color}
  {p g x : Ptr} {f : Frame Ptr}

theorem Place.setBlackRoot (h : Place m k t) (hne : t ≠ nil) :
    Runs (rbSetBlack (rootPtr t)) m fun _ m' => Place m' k t.blacken := by
  cases t with
  | nil => exact absurd rfl hne
  | node c l p r => exact Place.setBlack (s := .left) h

theorem ne_nil_of_red (h : t.color = .red) : t ≠ nil := by
  rintro rfl
  cases h

/-- A red uncle: the parent and the uncle turn black and the grandparent red. -/
theorem insertFix_of_red (h : Place m k (branch s .black g (branch s' .red p a b) u))
    (hu : u.color = .red) (node : Ptr) :
    Runs (rbInsertFix s node p g) m fun r m' =>
      r = g ∧ Place m' k (branch s .red g (branch s' .black p a b) u.blacken) := by
  have htest := (place_far_iff.mp h).testRed
  rw [decide_eq_true hu] at htest
  unfold rbInsertFix
  refine runs_bind_of_eq h.child_flip ?_
  refine runs_bind_of_eq htest ?_
  rw [if_pos rfl]
  refine ((place_far_iff.mp h).setBlackRoot (ne_nil_of_red hu)).then fun _ m₁ h₁ => ?_
  have h₁ := place_near_iff.mp (place_far_iff.mpr h₁)
  refine h₁.setBlack.then fun _ m₂ h₂ => ?_
  refine (place_near_iff.mpr h₂).setRed.then fun _ m₃ h₃ => ?_
  exact runs_pure ⟨rfl, h₃⟩

/-- The end of the body, where the parent is on the outside of the node: the parent moves up,
over the grandparent. -/
theorem insert_lift (h : Place m k (branch s .black g (branch s .red p n a) u)) (r : Ptr) :
    Runs (do
      rbSetBlack p
      rbSetRed g
      rbRotate s.flip g
      return r) m fun r' m' =>
      r' = r ∧ Place m' k (branch s .black p n (branch s .red g a u)) := by
  refine (place_near_iff.mp h).setBlack.then fun _ m₁ h₁ => ?_
  refine (place_near_iff.mpr h₁).setRed.then fun _ m₂ h₂ => ?_
  rw [← branch_flip, ← branch_flip (s := s)] at h₂
  refine h₂.rotate.then fun _ m₃ h₃ => ?_
  rw [branch_flip, branch_flip] at h₃
  exact runs_pure ⟨rfl, h₃⟩

/-- A black uncle, and the node on the outside of its parent. -/
theorem insertFix_outer (h : Place m k (branch s .black g (branch s .red p n a) u))
    (hu : u.color = .black) (hn : n ≠ nil) :
    Runs (rbInsertFix s (rootPtr n) p g) m fun r m' =>
      r = rootPtr n ∧ Place m' k (branch s .black p n (branch s .red g a u)) := by
  have htest := (place_far_iff.mp h).testRed
  have hp := place_near_iff.mp h
  rw [hu] at htest
  unfold rbInsertFix
  refine runs_bind_of_eq h.child_flip ?_
  refine runs_bind_of_eq htest ?_
  rw [if_neg (by decide)]
  refine runs_bind_of_eq hp.child_flip ?_
  rw [if_neg (hp.child_ne hn).symm]
  exact insert_lift h _

/-- A black uncle, and the node on the inside of its parent: the two are turned first. -/
theorem insertFix_inner
    (h : Place m k (branch s .black g (branch s .red p a (branch s .red x b n)) u))
    (hu : u.color = .black) :
    Runs (rbInsertFix s x p g) m fun r m' =>
      r = p ∧ Place m' k (branch s .black x (branch s .red p a b) (branch s .red g n u)) := by
  have htest := (place_far_iff.mp h).testRed
  have hp := place_near_iff.mp h
  rw [hu] at htest
  unfold rbInsertFix
  refine runs_bind_of_eq h.child_flip ?_
  refine runs_bind_of_eq htest ?_
  rw [if_neg (by decide)]
  refine runs_bind_of_eq hp.child_flip ?_
  rw [rootPtr_branch, if_pos rfl]
  refine hp.rotate.then fun _ m₁ h₁ => ?_
  exact runs_bind_of_eq rfl (insert_lift (place_near_iff.mpr h₁) _)

/-! ### Linking the new node -/

/-- The pointer to a place. -/
def linkOf : List (Frame Ptr) → RbLink
  | [] => .root
  | f :: _ => .child f.side f.label

theorem FramesAt.setLink {q : Ptr} (h : FramesAt m q k) (hnodup : (frameLabels k).Nodup)
    (haddr : ∀ x ∈ frameLabels k, Addr x) (p : Ptr) :
    Runs ((linkOf k).set p) m fun _ m' => FramesAt m' p k ∧ SameBut m m' (headPtr k) := by
  cases k with
  | nil => exact ⟨(), { m with rbNode := p }, rfl, rfl, fun _ _ => rfl⟩
  | cons f k =>
    have hne : f.label ≠ 0#32 := (haddr f.label (by simp [frameLabels])).ne
    exact ⟨(), _, update_eq hne, h.setChild hnodup p, fun x hx => modify_node_of_ne hx⟩

/-- `rb_link_node` puts a red leaf into an empty place. -/
theorem Place.link (h : Place m k nil) (hp : Addr p) (hout : p ∉ frameLabels k) :
    Runs (rbLinkNode p (headPtr k) (linkOf k)) m fun _ m' => Place m' k (node .red nil p nil) := by
  have hnodup : (frameLabels k).Nodup := h.nodup
  have haddr : ∀ x ∈ frameLabels k, Addr x := h.addr
  unfold rbLinkNode
  refine runs_bind_of_eq (update_eq hp.ne) ?_
  refine ((h.frames.modify hout).setLink hnodup haddr p).imp ?_
  rintro - m' ⟨hframes, hsame⟩
  refine ⟨hframes, ⟨?_, trivial, trivial⟩, List.nodup_cons.mpr ⟨hout, hnodup⟩, ?_⟩
  · have hred : parentColor (headPtr k) .red = headPtr k := BitVec.or_zero
    rw [hsame p (ne_headPtr hp.ne hout), modify_node_self, hred]
    rfl
  · intro x hx
    rcases List.mem_cons.mp hx with rfl | hx
    · exact hp
    · exact haddr x hx

/-! ### The loop -/

/-- The place at which `rb_insert_color` looks: a red node, with nothing wrong below it or
above its parent. -/
def InsertInv (l : List Ptr) (rank : Nat) (node : Ptr) (m : RbMem) : Prop :=
  ∃ k t h, Place m k t ∧ (plug k t).inorder = l ∧ rootPtr t = node ∧ t.color = .red ∧
    t.NoRedRed ∧ t.HasHeight h ∧ FramesOk k h ∧ rank = k.length

/-- The tree is right but for the colour of its root. -/
def RootLeft (l : List Ptr) (m : RbMem) : Prop :=
  ∃ t, Rep m t ∧ t.inorder = l ∧ t ≠ nil ∧ t.blacken.IsRedBlack

/-- The body of the loop: the fault moves up by two nodes or is gone. -/
theorem insertFix_spec {l : List Ptr} {k : List (Frame Ptr)} {f g : Frame Ptr} {h : Nat}
    (hplace : Place m (f :: g :: k) t) (hl : (plug (f :: g :: k) t).inorder = l)
    (ht : t.color = .red) (hred : t.NoRedRed) (hheight : t.HasHeight h)
    (hframes : FramesOk (f :: g :: k) h) (hf : f.color = .red) :
    Runs (rbInsertFix g.side (rootPtr t) f.label g.label) m fun r m' =>
      ∃ rank < k.length + 2, InsertInv l rank r m' := by
  obtain ⟨s', c, p, b⟩ := f
  obtain ⟨s, c', g, u⟩ := g
  subst hf
  obtain ⟨hb, hhb, hcolor, hu, hhu, -, hk⟩ := hframes
  obtain ⟨hbc, hc'⟩ := hcolor rfl
  change c' = .black at hc'
  subst hc'
  have hplace' : Place m k (branch s .black g (branch s' .red p t b) u) :=
    place_near_iff.mpr (place_near_iff.mpr hplace)
  have hl' : (plug k (branch s .black g (branch s' .red p t b) u)).inorder = l := hl
  cases huc : u.color with
  | red =>
    refine (insertFix_of_red hplace' huc _).imp ?_
    rintro r m' ⟨rfl, h'⟩
    refine ⟨k.length, by omega, k, _, h + 1, h', ?_, rootPtr_branch, color_branch, ?_, ?_, hk, rfl⟩
    · rw [← hl']
      apply inorder_plug_congr
      cases s <;> cases s' <;> simp [branch, inorder]
    · simp [noRedRed_branch, hred, noRedRed_blacken hu, hb]
    · exact hasHeight_branch.mpr ⟨h + 1, rfl, hasHeight_branch.mpr ⟨h, rfl, hheight, hhb⟩,
        hasHeight_blacken huc hhu⟩
  | black =>
    by_cases hs : s' = s
    · subst hs
      refine (insertFix_outer hplace' huc (ne_nil_of_red ht)).imp ?_
      rintro r m' ⟨rfl, h'⟩
      refine ⟨k.length + 1, by omega, _, t, h, place_near_iff.mp h', ?_, rfl, ht, hred, hheight,
        ?_, rfl⟩
      · rw [← hl']
        change (plug k (branch s' .black p t (branch s' .red g b u))).inorder = _
        apply inorder_plug_congr
        cases s' <;> simp [branch, inorder]
      · exact ⟨noRedRed_branch.mpr ⟨fun _ => ⟨hbc, huc⟩, hb, hu⟩,
          hasHeight_branch.mpr ⟨h, rfl, hhb, hhu⟩, Color.of_black_red, hk⟩
    · obtain ⟨x, b', n, rfl⟩ := exists_branch_of_red s ht
      obtain ⟨hcolor', hb', hn⟩ := noRedRed_branch.mp hred
      obtain ⟨hbc', hnc⟩ := hcolor' rfl
      obtain ⟨_, rfl, hhb', hhn⟩ := hasHeight_branch.mp hheight
      rw [Side.eq_flip_of_ne hs, branch_flip] at hplace' hl'
      rw [rootPtr_branch]
      refine (insertFix_inner hplace' huc).imp ?_
      rintro r m' ⟨rfl, h'⟩
      refine ⟨k.length + 1, by omega, _, _, _, place_near_iff.mp h', ?_, rootPtr_branch,
        color_branch, noRedRed_branch.mpr ⟨fun _ => ⟨hbc, hbc'⟩, hb, hb'⟩,
        hasHeight_branch.mpr ⟨_, rfl, hhb, hhb'⟩, ?_, rfl⟩
      · rw [← hl']
        change (plug k (branch s .black x (branch s .red r b b') (branch s .red g n u))).inorder = _
        apply inorder_plug_congr
        cases s <;> simp [branch, inorder]
      · exact ⟨noRedRed_branch.mpr ⟨fun _ => ⟨hnc, huc⟩, hn, hu⟩,
          hasHeight_branch.mpr ⟨_, rfl, hhn, hhu⟩, Color.of_black_red, hk⟩

/-- One round. -/
theorem insertRound_spec {l : List Ptr} {rank : Nat} {node : Ptr} (h : InsertInv l rank node m) :
    Runs (rbInsertRound node) m fun o m' =>
      o.elim (fun node' => ∃ rank' < rank, InsertInv l rank' node' m') fun _ => RootLeft l m' := by
  obtain ⟨k, t, n, hplace, hl, rfl, ht, hred, hheight, hframes, rfl⟩ := h
  have hne := ne_nil_of_red ht
  unfold rbInsertRound
  refine runs_bind_of_eq (hplace.parent_root hne) ?_
  cases k with
  | nil =>
    refine runs_bind_of_eq (a := false) rfl (runs_pure ?_)
    exact ⟨t, rep_plug_iff.mpr hplace, hl, hne, isRedBlack_blacken (noRedRed_blacken hred) hheight⟩
  | cons f k =>
    have hparent : Place m k (f.fill t) := place_cons_iff.mp hplace
    have htest := hparent.testRed
    rw [Frame.fill, rootPtr_branch, color_branch] at htest
    refine runs_bind_of_eq htest ?_
    cases hf : f.color with
    | black =>
      have hwhole : (plug (f :: k) t).IsRedBlack :=
        isRedBlack_plug_iff.mpr ⟨n, hred, hheight, fun _ => hf, hframes⟩
      refine runs_pure ⟨plug (f :: k) t, rep_plug_iff.mpr hplace, hl, plug_ne_nil hne _, ?_⟩
      rwa [blacken_of_black hwhole.root]
    | red =>
      rw [decide_eq_true rfl, if_pos rfl]
      cases k with
      | nil => cases (hframes.2.2.1 hf).2
      | cons g k =>
        have hfill := f.fill_ne_nil t
        have hp := hparent.parent_root hfill
        rw [Frame.fill, rootPtr_branch] at hp
        refine runs_bind_of_eq hp ?_
        have hgparent := place_cons_iff.mp hparent
        obtain ⟨q, hq, hside⟩ := hgparent.left_child (hgparent.child_ne hfill)
        rw [Frame.fill, rootPtr_branch] at hside
        change headPtr (f :: g :: k) = q ↔ _ at hside
        refine runs_bind_of_eq hq ?_
        have hfix := insertFix_spec hplace hl ht hred hheight hframes hf
        by_cases hs : headPtr (f :: g :: k) = q
        · rw [if_pos hs]
          rw [hside.mp hs] at hfix
          exact hfix.then fun r m' hr => runs_pure hr
        · rw [if_neg hs]
          rw [Side.eq_flip_of_ne (mt hside.mpr hs)] at hfix
          exact hfix.then fun r m' hr => runs_pure hr

/-- `rb_insert_color` repairs a tree in which only the new red node may be at fault. -/
theorem insertColor_spec {l : List Ptr} {rank fuel : Nat} {node : Ptr}
    (h : InsertInv l rank node m) (hfuel : rank < fuel) :
    Runs (rbInsertColor fuel node) m fun _ m' =>
      ∃ t, Rep m' t ∧ t.IsRedBlack ∧ t.inorder = l := by
  unfold rbInsertColor
  refine (runs_loopM (InsertInv l) (fun _ _ _ => insertRound_spec) h hfuel).then ?_
  rintro _ m' ⟨t, hrep, hl, hne, hblack⟩
  refine runs_read (a := m'.rbNode) rfl ?_
  rw [hrep.root]
  have hplace : Place m' [] t := rep_plug_iff.mp hrep
  refine (hplace.setBlackRoot hne).imp fun _ m'' h'' => ?_
  exact ⟨t.blacken, rep_plug_iff.mpr h'', hblack, by rw [inorder_blacken, hl]⟩

/-- Linking a new node into an empty place of a red-black tree and calling `rb_insert_color`
gives a red-black tree with the node at that place in the order. -/
theorem insert_spec {fuel : Nat} (hrep : Rep m (plug k nil)) (hblack : (plug k nil).IsRedBlack)
    (hp : Addr p) (hnew : p ∉ (plug k nil).inorder) (hfuel : k.length < fuel) :
    Runs (do
      rbLinkNode p (headPtr k) (linkOf k)
      rbInsertColor fuel p) m fun _ m' =>
      ∃ t, Rep m' t ∧ t.IsRedBlack ∧ t.inorder = before k ++ p :: after k := by
  have hout : p ∉ frameLabels k := fun h => hnew ((inorder_plug_perm k nil).mem_iff.mpr h)
  obtain ⟨h, -, hheight, -, hframes⟩ := isRedBlack_plug_iff.mp hblack
  refine ((rep_plug_iff.mp hrep).link hp hout).then fun _ m' hplace => ?_
  refine insertColor_spec ⟨k, _, h, hplace, ?_, rfl, rfl, ?_, ?_, hframes, rfl⟩ hfuel
  · rw [inorder_plug]
    simp [inorder]
  · exact ⟨fun _ => ⟨rfl, rfl⟩, trivial, trivial⟩
  · exact ⟨h, rfl, hheight, hheight⟩

end LinuxStm32.Lib
