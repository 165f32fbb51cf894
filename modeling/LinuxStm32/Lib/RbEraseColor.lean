import LinuxStm32.Lib.RbInsert

/-!
# Repair after a removal

`__rb_erase_color`. On the paths through some place a black node is missing; the loop moves that
place up until it can add one.
-/

namespace LinuxStm32.Lib

open Base RedBlack ColorTree

variable {m : RbMem} {k : List (Frame Ptr)} {t n d w : ColorTree Ptr} {s : Side} {c c' : Color}
  {p o : Ptr} {f : Frame Ptr} {l : List Ptr} {h : Nat}

/-! ### The turns -/

/-- The end of the body: `other` moves up over `parent` and a black node is gained. -/
theorem eraseTurn_spec (hplace : Place m k (branch s c p t (branch s c' o n d)))
    (hd : d.color = .red) : Runs (rbEraseTurn s p o) m fun r m' =>
      r = .inr m'.rbNode ∧ Place m' k (branch s c o (branch s .black p t n) d.blacken) := by
  unfold rbEraseTurn
  refine runs_bind_of_eq hplace.color_eq ?_
  refine ((place_far_iff.mp hplace).setColor c).then fun _ m₁ h₁ => ?_
  refine (place_far_iff.mpr h₁).setBlack.then fun _ m₂ h₂ => ?_
  have h₂ := place_far_iff.mp h₂
  refine runs_bind_of_eq h₂.child_flip ?_
  refine ((place_far_iff.mp h₂).setBlackRoot (ne_nil_of_red hd)).then fun _ m₃ h₃ => ?_
  refine (place_far_iff.mpr (place_far_iff.mpr h₃)).rotate.then fun _ m₄ h₄ => ?_
  exact runs_bind_of_eq rfl (runs_pure ⟨rfl, h₄⟩)

/-- What the tests of the children of `other` find. -/
theorem Place.children_red (hplace : Place m k (branch s c o n d)) :
    ∃ q q' l r, rbChild .left o m = some (q, m) ∧ rbTestRed q m = some (l, m) ∧
      rbChild .right o m = some (q', m) ∧ rbTestRed q' m = some (r, m) ∧
      ((!l && !r) = true ↔ n.color = .black ∧ d.color = .black) := by
  have hn := (place_near_iff.mp hplace).testRed
  have hd := (place_far_iff.mp hplace).testRed
  cases s with
  | left =>
    refine ⟨_, _, _, _, hplace.child, hn, hplace.child_flip, hd, ?_⟩
    simp [Color.ne_red]
  | right =>
    refine ⟨_, _, _, _, hplace.child_flip, hd, hplace.child, hn, ?_⟩
    simp [Color.ne_red, and_comm]

/-- A black sibling with black children turns red, and the place moves up. -/
theorem eraseBlack_of_black (hplace : Place m k (branch s c p t (branch s .black o n d)))
    (hn : n.color = .black) (hd : d.color = .black) :
    Runs (rbEraseBlack s p o) m fun r m' =>
      r = .inl (p, headPtr k) ∧ Place m' k (branch s c p t (branch s .red o n d)) := by
  have ho := place_far_iff.mp hplace
  obtain ⟨q, q', l, r, hq, hl, hq', hr, htest⟩ := ho.children_red
  unfold rbEraseBlack
  refine runs_bind_of_eq hq (runs_bind_of_eq hl (runs_bind_of_eq hq' (runs_bind_of_eq hr ?_)))
  rw [if_pos (htest.mpr ⟨hn, hd⟩)]
  refine ho.setRed.then fun _ m₁ h₁ => ?_
  have h₁ := place_far_iff.mpr h₁
  exact runs_bind_of_eq h₁.parent (runs_pure ⟨rfl, h₁⟩)

/-- A black sibling whose far child is red. -/
theorem eraseBlack_of_far (hplace : Place m k (branch s c p t (branch s .black o n d)))
    (hd : d.color = .red) : Runs (rbEraseBlack s p o) m fun r m' =>
      r = .inr m'.rbNode ∧ Place m' k (branch s c o (branch s .black p t n) d.blacken) := by
  have ho := place_far_iff.mp hplace
  obtain ⟨q, q', l, r, hq, hl, hq', hr, htest⟩ := ho.children_red
  have hred := (place_far_iff.mp ho).testRed
  rw [decide_eq_true hd] at hred
  unfold rbEraseBlack
  refine runs_bind_of_eq hq (runs_bind_of_eq hl (runs_bind_of_eq hq' (runs_bind_of_eq hr ?_)))
  rw [if_neg (by rw [htest, hd]; simp)]
  refine runs_bind_of_eq ho.child_flip (runs_bind_of_eq hred ?_)
  rw [if_pos rfl]
  exact eraseTurn_spec hplace hd

/-- A black sibling of whose children only the near one is red: the two are turned first. -/
theorem eraseBlack_of_near {x : Ptr} {a b : ColorTree Ptr}
    (hplace : Place m k (branch s c p t (branch s .black o (branch s .red x a b) d)))
    (hd : d.color = .black) : Runs (rbEraseBlack s p o) m fun r m' =>
      r = .inr m'.rbNode ∧
        Place m' k (branch s c x (branch s .black p t a) (branch s .black o b d)) := by
  have ho := place_far_iff.mp hplace
  obtain ⟨q, q', l, r, hq, hl, hq', hr, htest⟩ := ho.children_red
  have hblack := (place_far_iff.mp ho).testRed
  rw [hd] at hblack
  unfold rbEraseBlack
  refine runs_bind_of_eq hq (runs_bind_of_eq hl (runs_bind_of_eq hq' (runs_bind_of_eq hr ?_)))
  rw [if_neg (by rw [htest]; simp)]
  refine runs_bind_of_eq ho.child_flip (runs_bind_of_eq hblack ?_)
  rw [if_neg (by decide)]
  refine runs_bind_of_eq ho.child ?_
  rw [rootPtr_branch]
  refine (place_near_iff.mp ho).setBlack.then fun _ m₁ h₁ => ?_
  refine (place_near_iff.mpr h₁).setRed.then fun _ m₂ h₂ => ?_
  rw [← branch_flip, ← branch_flip (s := s)] at h₂
  refine h₂.rotate.then fun _ m₃ h₃ => ?_
  rw [branch_flip, branch_flip] at h₃
  have h₃ := place_far_iff.mpr h₃
  refine runs_bind_of_eq h₃.child_flip ?_
  rw [rootPtr_branch]
  refine (eraseTurn_spec h₃ color_branch).imp ?_
  rintro _ m₄ ⟨rfl, h₄⟩
  rw [blacken_branch] at h₄
  exact ⟨rfl, h₄⟩

/-! ### The loop -/

/-- The place at which `__rb_erase_color` looks: on the paths through it one black node is
missing, and nothing else is wrong except that its root may be red above red. -/
def EraseInv (l : List Ptr) (rank : Nat) (v : Ptr × Ptr) (m : RbMem) : Prop :=
  ∃ k t h, Place m k t ∧ (plug k t).inorder = l ∧ v = (rootPtr t, headPtr k) ∧
    t.blacken.NoRedRed ∧ t.HasHeight h ∧ FramesOk k (h + 1) ∧
    rank = 2 * k.length + t.color.height

/-- The place at which the loop ends: the tree is right once its root there is black. -/
def EraseDone (l : List Ptr) (node : Ptr) (m : RbMem) : Prop :=
  ∃ k t h, Place m k t ∧ (plug k t).inorder = l ∧ node = rootPtr t ∧
    t.blacken.NoRedRed ∧ t.blacken.HasHeight h ∧ FramesOk k h

/-- A tree that is right as a whole. -/
theorem EraseDone.of_isRedBlack (hplace : Place m k t) (hl : (plug k t).inorder = l)
    (hblack : (plug k t).IsRedBlack) : EraseDone l m.rbNode m := by
  have hrep := rep_plug_iff.mpr hplace
  obtain ⟨hroot, hred, h, hheight⟩ := hblack
  refine ⟨[], plug k t, h, rep_plug_iff.mp hrep, hl, hrep.root, ?_, ?_, trivial⟩
  · rwa [blacken_of_black hroot]
  · rwa [blacken_of_black hroot]

/-- What the body does once `other` is black. -/
theorem eraseBlack_spec {k : List (Frame Ptr)}
    (hplace : Place m k (branch s c p t w)) (hl : (plug k (branch s c p t w)).inorder = l)
    (hred : t.NoRedRed) (hheight : t.HasHeight h)
    (hframes : FramesOk (⟨s, c, p, w⟩ :: k) (h + 1)) (hw : w.color = .black) :
    Runs (rbEraseBlack s p (rootPtr w)) m fun r m' =>
      r.elim (fun v => EraseInv l (2 * k.length + c.height) v m')
        fun node => EraseDone l node m' := by
  obtain ⟨hwred, hwheight, hcolor, hk⟩ := hframes
  obtain ⟨c', o, n, d, rfl⟩ := exists_branch_of_hasHeight s hwheight
  rw [color_branch] at hw
  subst hw
  obtain ⟨-, hn, hd⟩ := noRedRed_branch.mp hwred
  obtain ⟨_, heq, hhn, hhd⟩ := hasHeight_branch.mp hwheight
  cases heq
  rw [rootPtr_branch]
  -- the turns end with a tree that is right as a whole
  have hturn {x : Ptr} {a d' : ColorTree Ptr} {m' : RbMem}
      (hplace' : Place m' k (branch s c x (branch s .black p t a) d'))
      (hl' : (branch s c x (branch s .black p t a) d').inorder =
        (branch s c p t (branch s .black o n d)).inorder)
      (ha : a.NoRedRed) (hha : a.HasHeight h) (hd' : d'.NoRedRed) (hdc : d'.color = .black)
      (hhd' : d'.HasHeight (h + 1)) : EraseDone l m'.rbNode m' := by
    refine .of_isRedBlack hplace' ((inorder_plug_congr hl').trans hl) (isRedBlack_plug_iff.mpr ?_)
    refine ⟨h + 1 + c.height, noRedRed_branch.mpr ⟨fun _ => ⟨color_branch, hdc⟩,
      noRedRed_branch.mpr ⟨Color.of_black_red, hred, ha⟩, hd'⟩, hasHeight_branch.mpr ⟨h + 1, rfl,
      hasHeight_branch.mpr ⟨h, rfl, hheight, hha⟩, hhd'⟩, ?_, hk⟩
    rw [color_branch]
    exact fun hc => (hcolor hc).2
  cases hdc : d.color with
  | red =>
    refine (eraseBlack_of_far hplace hdc).imp ?_
    rintro _ m' ⟨rfl, h'⟩
    refine hturn h' ?_ hn hhn (noRedRed_blacken hd) color_blacken (hasHeight_blacken hdc hhd)
    cases s <;> simp [branch, inorder]
  | black =>
    cases hnc : n.color with
    | red =>
      obtain ⟨x, a, b, rfl⟩ := exists_branch_of_red s hnc
      obtain ⟨-, ha, hb⟩ := noRedRed_branch.mp hn
      obtain ⟨_, rfl, hha, hhb⟩ := hasHeight_branch.mp hhn
      refine (eraseBlack_of_near hplace hdc).imp ?_
      rintro _ m' ⟨rfl, h'⟩
      refine hturn h' ?_ ha hha (noRedRed_branch.mpr ⟨Color.of_black_red, hb, hd⟩) color_branch
        (hasHeight_branch.mpr ⟨_, rfl, hhb, hhd⟩)
      cases s <;> simp [branch, inorder]
    | black =>
      refine (eraseBlack_of_black hplace hnc hdc).imp ?_
      rintro _ m' ⟨rfl, h'⟩
      refine ⟨k, _, h + c.height, h', ?_, by rw [rootPtr_branch], ?_, ?_, ?_, by rw [color_branch]⟩
      · rw [← hl]
        apply inorder_plug_congr
        cases s <;> simp [branch, inorder]
      · rw [blacken_branch]
        exact noRedRed_branch.mpr
          ⟨Color.of_black_red, hred, noRedRed_branch.mpr ⟨fun _ => ⟨hnc, hdc⟩, hn, hd⟩⟩
      · exact hasHeight_branch.mpr ⟨h, rfl, hheight, hasHeight_branch.mpr ⟨h, rfl, hhn, hhd⟩⟩
      · rwa [Nat.add_right_comm]

/-- The body of the loop. -/
theorem eraseFix_spec (hplace : Place m (f :: k) t) (hl : (plug (f :: k) t).inorder = l)
    (hred : t.NoRedRed) (hheight : t.HasHeight h) (hframes : FramesOk (f :: k) (h + 1)) :
    Runs (rbEraseFix f.side f.label) m fun r m' =>
      r.elim (fun v => ∃ rank < 2 * (k.length + 1) + 1, EraseInv l rank v m')
        fun node => EraseDone l node m' := by
  obtain ⟨s, c, p, w⟩ := f
  have hheightw : w.HasHeight (h + 1) := hframes.2.1
  obtain ⟨c', o, n, d, rfl⟩ := exists_branch_of_hasHeight s hheightw
  have hp := place_near_iff.mpr hplace
  have hw := (place_far_iff.mp hp).isRed
  unfold rbEraseFix
  refine runs_bind_of_eq hp.child_flip ?_
  rw [rootPtr_branch]
  refine runs_bind_of_eq hw ?_
  cases c' with
  | black =>
    rw [if_neg (by decide)]
    have hrest := eraseBlack_spec hp hl hred hheight hframes color_branch
    rw [rootPtr_branch] at hrest
    refine hrest.imp fun r m' hr => ?_
    cases r with
    | inl v =>
      have hc : c.height ≤ 1 := by cases c <;> decide
      exact ⟨_, by omega, hr⟩
    | inr node => exact hr
  | red =>
    obtain ⟨hwred, -, hcolor, hk⟩ := hframes
    have hc : c = .black := by
      refine Color.ne_red.mp fun hc => ?_
      have hblack := (hcolor hc).1
      rw [color_branch] at hblack
      cases hblack
    subst hc
    obtain ⟨hchildren, hn, hd⟩ := noRedRed_branch.mp hwred
    obtain ⟨_, rfl, hhn, hhd⟩ := hasHeight_branch.mp hheightw
    rw [if_pos (by decide)]
    refine (place_far_iff.mp hp).setBlack.then fun _ m₁ h₁ => ?_
    refine (place_far_iff.mpr h₁).setRed.then fun _ m₂ h₂ => ?_
    refine h₂.rotate.then fun _ m₃ h₃ => ?_
    have h₃ := place_near_iff.mp h₃
    refine runs_bind_of_eq h₃.child_flip ?_
    have hl₃ : (plug (⟨s, .black, o, d⟩ :: k) (branch s .red p t n)).inorder = l := by
      rw [← hl]
      change (plug k (branch s .black o (branch s .red p t n) d)).inorder =
        (plug k (branch s .black p t (branch s .red o n d))).inorder
      apply inorder_plug_congr
      cases s <;> simp [branch, inorder]
    have hframes₃ : FramesOk (⟨s, .red, p, n⟩ :: ⟨s, .black, o, d⟩ :: k) (h + 1) :=
      ⟨hn, hhn, fun _ => ⟨(hchildren rfl).1, rfl⟩, hd, hhd, Color.of_black_red, hk⟩
    refine (eraseBlack_spec h₃ hl₃ hred hheight hframes₃ (hchildren rfl).1).imp fun r m' hr => ?_
    cases r with
    | inl v => exact ⟨_, Nat.lt_succ_self _, hr⟩
    | inr node => exact hr

/-- One round. -/
theorem eraseRound_spec {rank : Nat} {v : Ptr × Ptr} (hinv : EraseInv l rank v m) :
    Runs (rbEraseRound v) m fun r m' =>
      r.elim (fun v' => ∃ rank' < rank, EraseInv l rank' v' m')
        fun node => EraseDone l node m' := by
  obtain ⟨k, t, h, hplace, hl, rfl, hred, hheight, hframes, rfl⟩ := hinv
  unfold rbEraseRound
  refine runs_bind_of_eq hplace.testRed ?_
  refine runs_read (a := m.rbNode) rfl ?_
  cases hc : t.color with
  | red =>
    rw [if_neg (by simp)]
    exact runs_pure ⟨k, t, h + 1, hplace, hl, rfl, hred, hasHeight_blacken hc hheight, hframes⟩
  | black =>
    rw [blacken_of_black hc] at hred
    cases k with
    | nil =>
      have hroot : m.rbNode = rootPtr t := hplace.frames
      rw [if_neg (by simp [hroot])]
      refine runs_pure ⟨[], t, h, hplace, hl, rfl, ?_, ?_, trivial⟩
      · rwa [blacken_of_black hc]
      · rwa [blacken_of_black hc]
    | cons f k =>
      rw [if_pos ⟨by decide, hplace.ne_root⟩]
      have hp := place_cons_iff.mp hplace
      have hsib : f.sibling ≠ nil := by
        rintro hnil
        have hheight' := hframes.2.1
        rw [hnil] at hheight'
        cases hheight'
      obtain ⟨q, hq, hside⟩ := hp.left_child (hp.child_ne_of_far hsib)
      refine runs_bind_of_eq hq ?_
      have hfix := eraseFix_spec hplace hl hred hheight hframes
      by_cases hs : q = rootPtr t
      · rw [if_pos hs]
        rw [hside.mp hs.symm] at hfix
        exact hfix
      · rw [if_neg hs]
        rw [Side.eq_flip_of_ne (mt hside.mpr (Ne.symm hs))] at hfix
        exact hfix

/-- `__rb_erase_color` repairs a tree in which one black node is missing below some place. -/
theorem eraseColor_spec {rank fuel : Nat} {v : Ptr × Ptr} (hinv : EraseInv l rank v m)
    (hfuel : rank < fuel) : Runs (rbEraseColor fuel v.1 v.2) m fun _ m' =>
      ∃ t, Rep m' t ∧ t.IsRedBlack ∧ t.inorder = l := by
  unfold rbEraseColor
  refine (runs_loopM (EraseInv l) (fun _ _ _ => eraseRound_spec) hinv hfuel).then ?_
  rintro node m' ⟨k, t, h, hplace, hl, rfl, hred, hheight, hframes⟩
  have hblack : (plug k t.blacken).IsRedBlack :=
    isRedBlack_plug_iff.mpr ⟨h, hred, hheight, by simp, hframes⟩
  have hl' : (plug k t.blacken).inorder = l := (inorder_plug_congr inorder_blacken).trans hl
  cases t with
  | nil => exact ⟨(), m', rfl, _, rep_plug_iff.mpr hplace, hblack, hl'⟩
  | node c a p b =>
    have hp : Place m' k (branch .left c p a b) := hplace
    rw [rootPtr, if_pos hp.addr_root.ne]
    exact hp.setBlack.imp fun _ m'' h'' => ⟨_, rep_plug_iff.mpr h'', hblack, hl'⟩

end LinuxStm32.Lib
