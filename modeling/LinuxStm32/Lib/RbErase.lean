import LinuxStm32.Lib.RbEraseColor

/-!
# Removal

`rb_erase`. A node with at most one child is replaced by it, one with two children by its
successor, which is taken out of its own place first.
-/

namespace LinuxStm32.Lib

open Base RedBlack ColorTree

variable {m : RbMem} {k k' : List (Frame Ptr)} {t l r : ColorTree Ptr} {s : Side} {c c' : Color}
  {p x old : Ptr} {f : Frame Ptr} {fuel : Nat} {par : Ptr}

/-! ### The first node below a place -/

/-- Going down to the left from a tree finds its first node. -/
theorem Place.leftmost (h : Place m k (plug k' (node c nil x r)))
    (hleft : ∀ f ∈ k', f.side = .left) (hfuel : k'.length < fuel) :
    Runs (loopM rbLeftRound fuel (rootPtr (plug k' (node c nil x r)))) m fun q m' =>
      q = x ∧ m' = m := by
  refine runs_loopM (fun n q m' => m' = m ∧ ∃ k₁ k₂, k' = k₁ ++ k₂ ∧
    q = rootPtr (plug k₁ (node c nil x r)) ∧ n = k₁.length) ?_
    ⟨rfl, k', [], (List.append_nil k').symm, rfl, rfl⟩ hfuel
  rintro n q m' ⟨hm, k₁, k₂, hk, rfl, rfl⟩
  rw [hm]
  have hplace : Place m (k₂ ++ k) (plug k₁ (node c nil x r)) := by
    rw [← rep_plug_iff, plug_append, ← plug_append k₁, ← hk]
    exact rep_plug_iff.mpr h
  unfold rbLeftRound
  rcases List.eq_nil_or_concat k₁ with rfl | ⟨k₃, f, rfl⟩
  · have hx : Place m (k₂ ++ k) (branch .left c x nil r) := hplace
    exact runs_bind_of_eq hx.child (runs_pure ⟨rfl, rfl⟩)
  · have hside : f.side = .left := hleft f (by simp [hk])
    rw [List.concat_eq_append, plug_append] at hplace
    change Place m (k₂ ++ k) (f.fill _) at hplace
    rw [Frame.fill, hside] at hplace
    have hroot : rootPtr (plug (k₃.concat f) (node c nil x r)) = f.label := by
      rw [List.concat_eq_append, plug_append]
      exact rootPtr_branch
    rw [hroot]
    refine runs_bind_of_eq hplace.child ?_
    rw [if_pos
      ((place_near_iff.mp hplace).root_ne (plug_ne_nil (t := node c nil x r) node_ne_nil k₃))]
    refine runs_pure ⟨k₃.length, by simp, rfl, k₃, f :: k₂, ?_, rfl, rfl⟩
    rw [hk, List.concat_eq_append, List.append_assoc, List.singleton_append]

/-! ### A node with one child -/

/-- A node with at most one child is replaced by it. -/
theorem eraseOuter_spec (h : Place m k (branch s c p t nil)) :
    Runs (rbEraseOuter p (rootPtr t)) m fun v m' =>
      v = (rootPtr t, headPtr k, colorBit c) ∧ Place m' k t := by
  obtain ⟨-, ht, -⟩ := treeAt_branch.mp h.tree
  have haddr := h.addr
  simp only [List.mem_append, mem_branch] at haddr
  have hnodup := h.nodup
  simp only [List.nodup_append, nodup_branch, mem_branch] at hnodup
  obtain ⟨⟨hpt, -, htn, -, -⟩, hkn, hout⟩ := hnodup
  have hpk : p ∉ frameLabels k := fun hx => hout p (.inl rfl) p hx rfl
  have hroot : ∀ x ∈ frameLabels k, x ≠ rootPtr t := fun x hx =>
    ne_rootPtr (haddr x (.inr hx)).ne fun hxt => hout x (.inr (.inl hxt)) x hx rfl
  unfold rbEraseOuter
  refine runs_bind_of_eq h.parent (runs_bind_of_eq h.color_eq ?_)
  refine (ht.adopt h.addr_root.aligned htn (fun x hx => haddr x (.inl (.inr (.inl hx)))) _).then ?_
  rintro - m₁ ⟨ht₁, hsame₁, hroot₁⟩
  have hframes := h.frames
  rw [rootPtr_branch] at hframes
  have hframes₁ := hframes.congr hroot₁ fun x hx => hsame₁ x (hroot x hx)
  refine (hframes₁.replaceChild hkn (fun x hx => haddr x (.inr hx)) h.addr_root.ne hpk .left
    (rootPtr t)).then ?_
  rintro - m₂ ⟨hframes₂, hsame₂⟩
  refine runs_pure ⟨rfl, hframes₂, ht₁.congr fun x hx => hsame₂ x ?_, ?_, ?_⟩
  · exact ne_headPtr (haddr x (.inl (.inr (.inl hx)))).ne fun hxk =>
      hout x (.inr (.inl hx)) x hxk rfl
  · exact List.nodup_append.mpr ⟨htn, hkn, fun x hx => hout x (.inr (.inl hx))⟩
  · exact fun x hx => haddr x ((List.mem_append.mp hx).imp (fun hx => .inr (.inl hx)) id)

/-! ### A node with two children -/

/-- Nodes deep in a tree may change as long as its root does not. -/
theorem TreeAt.plug_congr {m' : RbMem} {t t' : ColorTree Ptr} (h : TreeAt m par (plug k t))
    (hroot : rootPtr t' = rootPtr t) (hsame : ∀ x ∈ frameLabels k, m'.node x = m.node x)
    (ht : ∀ par, TreeAt m par t → TreeAt m' par t') : TreeAt m' par (plug k t') := by
  induction k generalizing t t' with
  | nil => exact ht par h
  | cons f k ih =>
    simp only [frameLabels, List.mem_cons, List.mem_append] at hsame
    refine ih h (by simp only [Frame.fill, rootPtr_branch])
      (fun x hx => hsame x (.inr (.inr hx))) ?_
    intro par' hfill
    rw [Frame.fill, treeAt_branch] at hfill ⊢
    obtain ⟨hnode, hsub, hsib⟩ := hfill
    refine ⟨?_, ht _ hsub, hsib.congr fun x hx => hsame x (.inr (.inl hx))⟩
    rw [hsame f.label (.inl rfl), hnode, hroot]

theorem TreeAt.of_plug (h : TreeAt m par (plug k t)) : ∃ par', TreeAt m par' t := by
  induction k generalizing t with
  | nil => exact ⟨par, h⟩
  | cons f k ih =>
    obtain ⟨par', hfill⟩ := ih h
    exact ⟨f.label, (treeAt_branch.mp hfill).2.1⟩

theorem inorder_leftmost (hleft : ∀ f ∈ k', f.side = .left) :
    (plug k' (node c nil x r)).inorder = x :: (plug k' r).inorder := by
  rw [inorder_plug, inorder_plug, before_of_left hleft]
  rfl

/-- The first node is taken out of a tree from below. -/
theorem TreeAt.dropFirst (h : TreeAt m par (plug (f :: k) (node c nil x r)))
    (hf : f.side = .left) (hx : Addr x)
    (hnodup : (r.inorder ++ frameLabels (f :: k)).Nodup)
    (haddr : ∀ y ∈ r.inorder ++ frameLabels (f :: k), Addr y) :
    Runs (do
      rbAdopt (rootPtr r) f.label
      rbSetChild .left f.label (rootPtr r)) m fun _ m' =>
      TreeAt m' par (plug (f :: k) r) ∧ m'.rbNode = m.rbNode ∧
        ∀ y, y ≠ 0#32 → y ∉ r.inorder ++ frameLabels (f :: k) → m'.node y = m.node y := by
  rw [frameLabels] at *
  simp only [List.mem_append, List.mem_cons, not_or] at haddr ⊢
  simp only [List.nodup_append, List.nodup_cons, List.mem_append, List.mem_cons, not_or] at hnodup
  obtain ⟨hrn, ⟨⟨hfs, hfk⟩, -⟩, hout⟩ := hnodup
  have hfr : f.label ∉ r.inorder := fun hmem => hout _ hmem _ (.inl rfl) rfl
  have hfa : Addr f.label := haddr _ (.inr (.inl rfl))
  have hapart (y : Ptr) (hy : y ∈ f.sibling.inorder ∨ y ∈ frameLabels k) : y ≠ rootPtr r :=
    ne_rootPtr (haddr y (.inr (.inr hy))).ne fun hmem => hout y hmem y (.inr hy) rfl
  obtain ⟨_, hfill⟩ := TreeAt.of_plug (t := f.fill (node c nil x r)) h
  obtain ⟨-, ⟨-, -, hr⟩, -⟩ := treeAt_branch.mp hfill
  refine (hr.adopt hx.aligned hrn (fun y hy => haddr y (.inl hy)) f.label).then ?_
  rintro - m₁ ⟨hr₁, hsame₁, hroot₁⟩
  refine ⟨(), _, update_eq hfa.ne, ?_, hroot₁, ?_⟩
  · refine TreeAt.plug_congr (k := k) (t := f.fill (node c nil x r)) h ?_ (fun y hy => ?_)
      fun par' hfill => ?_
    · simp only [Frame.fill, rootPtr_branch]
    · rw [modify_node_of_ne (ne_of_mem_of_not_mem hy hfk), hsame₁ y (hapart y (.inr hy))]
    · obtain ⟨hnode, -, hsib⟩ := treeAt_branch.mp hfill
      refine treeAt_branch.mpr ⟨?_, hr₁.modify hfr, ?_⟩
      · rw [modify_node_self, hsame₁ _ (ne_rootPtr hfa.ne hfr), hnode, ← hf, setChild_sideNode]
      · exact (hsib.congr fun y hy => hsame₁ y (hapart y (.inl hy))).modify hfs
  · intro y hy₀ hy
    rw [modify_node_of_ne hy.2.1, hsame₁ y (ne_rootPtr hy₀ hy.1)]

theorem rootPtr_plug_congr {t t' : ColorTree Ptr} (h : rootPtr t = rootPtr t') :
    rootPtr (plug k t) = rootPtr (plug k t') := by
  induction k generalizing t t' with
  | nil => exact h
  | cons f k ih => exact ih (by simp only [Frame.fill, rootPtr_branch])

theorem rootPtr_ne_zero (haddr : ∀ y ∈ t.inorder, Addr y) (h : t ≠ nil) : rootPtr t ≠ 0#32 := by
  cases t with
  | nil => exact absurd rfl h
  | node c l p r => exact (haddr p (by simp [inorder])).ne

/-- `rb_set_parent` of the root of a tree. -/
theorem TreeAt.setParent (h : TreeAt m par t) (haligned : par &&& ~~~3#32 = par)
    (hnodup : t.inorder.Nodup) (haddr : ∀ p ∈ t.inorder, Addr p) (hne : t ≠ nil) (q : Ptr) :
    Runs (rbSetParent (rootPtr t) q) m fun _ m' =>
      TreeAt m' q t ∧ SameBut m m' (rootPtr t) ∧ m'.rbNode = m.rbNode := by
  have hadopt := h.adopt haligned hnodup haddr q
  unfold rbAdopt at hadopt
  rwa [if_neg (rootPtr_ne_zero haddr hne)] at hadopt

/-- The node above the gap that the successor leaves. -/
def gapPtr (k : List (Frame Ptr)) (x : Ptr) : Ptr :=
  match k with
  | [] => x
  | f :: _ => f.label

/-- The successor `x` of `old` is taken out of the tree below `old`, which then hangs below it. -/
theorem eraseDetach_spec {near : Ptr} {pc : BitVec 32}
    (hold : m.node old = sideNode .left pc near (rootPtr (plug k' (node c nil x r))))
    (holda : Addr old) (h : TreeAt m old (plug k' (node c nil x r)))
    (hleft : ∀ f ∈ k', f.side = .left) (hnodup : (old :: x :: (plug k' r).inorder).Nodup)
    (haddr : ∀ y ∈ x :: (plug k' r).inorder, Addr y) :
    Runs (rbEraseDetach old x) m fun q m' => q = gapPtr k' x ∧ TreeAt m' x (plug k' r) ∧
      (m'.node x).rbRight = rootPtr (plug k' r) ∧ m'.rbNode = m.rbNode ∧
      ∀ y, y ≠ 0#32 → y ∉ x :: (plug k' r).inorder → m'.node y = m.node y := by
  have hperm := inorder_plug_perm k' r
  have hxa : Addr x := haddr x List.mem_cons_self
  obtain ⟨hox, hxr⟩ := List.nodup_cons.mp hnodup
  obtain ⟨hxr, hrn⟩ := List.nodup_cons.mp hxr
  have hne' : old ≠ x := by
    rintro rfl
    exact hox List.mem_cons_self
  unfold rbEraseDetach
  cases k' with
  | nil =>
    obtain ⟨hx, -, hr⟩ := h
    refine runs_bind_of_eq (rbChild_eq hxa.ne) (runs_bind_of_eq (rbParent_eq hxa.ne) ?_)
    rw [hx, rbParentColor_sideNode, parentColor_parent holda.aligned, if_pos rfl]
    refine runs_pure ⟨rfl, hr, ?_, rfl, fun _ _ _ => rfl⟩
    rw [hx]
    rfl
  | cons f k =>
    obtain ⟨_, hfill⟩ := TreeAt.of_plug (k := k) (t := f.fill (node c nil x r)) h
    obtain ⟨-, ⟨hx, -, -⟩, -⟩ := treeAt_branch.mp hfill
    have hfa : Addr f.label :=
      haddr _ (List.mem_cons_of_mem _ (hperm.mem_iff.mpr (by simp [frameLabels])))
    have hfold : f.label ≠ old := by
      rintro rfl
      exact hox (List.mem_cons_of_mem _ (hperm.mem_iff.mpr (by simp [frameLabels])))
    refine runs_bind_of_eq (rbChild_eq hxa.ne) (runs_bind_of_eq (rbParent_eq hxa.ne) ?_)
    rw [hx, rbParentColor_sideNode, parentColor_parent hfa.aligned, if_neg hfold, ← bind_assoc]
    have hsub : ∀ y ∈ r.inorder ++ frameLabels (f :: k), y ∈ (plug (f :: k) r).inorder :=
      fun y hy => hperm.mem_iff.mpr hy
    refine (h.dropFirst (hleft f List.mem_cons_self) hxa (hperm.nodup_iff.mp hrn)
      fun y hy => haddr y (List.mem_cons_of_mem _ (hsub y hy))).then ?_
    rintro - m₁ ⟨h₁, hroot₁, hsame₁⟩
    have hroot : rootPtr (plug (f :: k) (node c nil x r)) = rootPtr (plug (f :: k) r) :=
      rootPtr_plug_congr (k := k) (by simp only [Frame.fill, rootPtr_branch])
    have hold₁ : m₁.node old = sideNode .left pc near (rootPtr (plug (f :: k) r)) := by
      rw [hsame₁ old holda.ne fun hy => hox (List.mem_cons_of_mem _ (hsub _ hy)), hold, hroot]
    refine runs_bind_of_eq (rbChild_eq holda.ne) (runs_bind_of_eq (update_eq hxa.ne) ?_)
    refine runs_bind_of_eq (rbChild_eq holda.ne) ?_
    rw [modify_node_of_ne hne', hold₁]
    refine ((h₁.modify hxr).setParent holda.aligned hrn
      (fun y hy => haddr y (List.mem_cons_of_mem _ hy))
      (plug_ne_nil (k := k) (f.fill_ne_nil r)) x).then ?_
    rintro - m₃ ⟨h₃, hsame₃, hroot₃⟩
    refine runs_pure ⟨rfl, h₃, ?_, hroot₃.trans hroot₁, fun y hy₀ hy => ?_⟩
    · rw [hsame₃ x (ne_rootPtr hxa.ne hxr), modify_node_self]
      rfl
    · rw [List.mem_cons, not_or] at hy
      rw [hsame₃ y (ne_rootPtr hy₀ hy.2), modify_node_of_ne hy.1,
        hsame₁ y hy₀ fun hmem => hy.2 (hsub y hmem)]

/-- A node with two children is replaced by its successor. -/
theorem eraseInner_spec (h : Place m k (node c l old (plug k' (node c' nil x r))))
    (hl : l ≠ nil) (hleft : ∀ f ∈ k', f.side = .left) (hfuel : k'.length < fuel) :
    Runs (rbEraseInner fuel old) m fun v m' =>
      v = (rootPtr r, headPtr (k' ++ ⟨.right, c, x, l⟩ :: k), colorBit c') ∧
        Place m' (k' ++ ⟨.right, c, x, l⟩ :: k) r := by
  have hplace : Place m k (branch .left c old l (plug k' (node c' nil x r))) := h
  have hx : Place m (k' ++ ⟨.right, c, old, l⟩ :: k) (branch .left c' x nil r) := by
    rw [← rep_plug_iff, plug_append]
    exact rep_plug_iff.mpr (place_far_iff.mp hplace)
  obtain ⟨hold, hlt, hrt⟩ := treeAt_branch.mp hplace.tree
  have holda := hplace.addr_root
  have hxa := hx.addr_root
  have haddr := hplace.addr
  have hnodup := hplace.nodup
  simp only [List.mem_append, mem_branch, inorder_leftmost hleft, List.mem_cons] at haddr
  simp only [List.nodup_append, nodup_branch, mem_branch, inorder_leftmost hleft, List.mem_cons,
    not_or] at hnodup
  obtain ⟨⟨hol, ⟨hox, hoX⟩, hln, hXn, hlX⟩, hkn, hout⟩ := hnodup
  have hok : old ∉ frameLabels k := fun hy => hout old (.inl rfl) old hy rfl
  unfold rbEraseInner
  refine runs_bind_of_eq hplace.child_flip ?_
  refine ((place_far_iff.mp hplace).leftmost hleft hfuel).then ?_
  rintro q m₀ ⟨hq, hm⟩
  rw [hq, hm]
  refine runs_bind_of_eq hplace.parent ?_
  have hframes := hplace.frames
  rw [rootPtr_branch] at hframes
  refine (hframes.replaceChild hkn (fun y hy => haddr y (.inr hy)) holda.ne hok .left x).then ?_
  rintro - m₁ ⟨hframes₁, hsame₁⟩
  have hinside (y : Ptr) (hy : y = old ∨ y ∈ l.inorder ∨ y = x ∨ y ∈ (plug k' r).inorder) :
      m₁.node y = m.node y :=
    hsame₁ y (ne_headPtr (haddr y (.inl hy)).ne fun hyk => hout y hy y hyk rfl)
  have hold₁ := (hinside old (.inl rfl)).trans hold
  have hx₁ := (hinside x (.inr (.inr (.inl rfl)))).trans hx.node_eq
  refine runs_bind_of_eq (rbChild_eq hxa.ne) (runs_bind_of_eq (rbColor_eq hxa.ne) ?_)
  rw [hx₁, rbParentColor_sideNode, parentColor_color hx.head_aligned]
  have hrt₁ : TreeAt m₁ old (plug k' (node c' nil x r)) := hrt.congr fun y hy => by
    rw [inorder_leftmost hleft, List.mem_cons] at hy
    exact hinside y (.inr (.inr hy))
  refine (eraseDetach_spec hold₁ holda hrt₁ hleft ?_ ?_).then ?_
  · exact List.nodup_cons.mpr ⟨by simp [hox, hoX], hXn⟩
  · exact fun y hy => haddr y (.inl (.inr (.inr (List.mem_cons.mp hy))))
  rintro _ m₂ ⟨rfl, hX₂, hright₂, hroot₂, hsame₂⟩
  obtain ⟨hxX, hXn⟩ := List.nodup_cons.mp hXn
  have hapart {y : Ptr} (hy₀ : y ≠ 0#32) (hyx : y ≠ x) (hyX : y ∉ (plug k' r).inorder) :
      m₂.node y = m₁.node y := hsame₂ y hy₀ (by simp [hyx, hyX])
  have hold₂ := (hapart holda.ne hox hoX).trans hold₁
  have hlx : x ∉ l.inorder := fun hy => hlX x hy x (.inl rfl) rfl
  have hl₂ : TreeAt m₂ old l := hlt.congr fun y hy => by
    rw [hapart (haddr y (.inl (.inr (.inl hy)))).ne (ne_of_mem_of_not_mem hy hlx)
      fun hyX => hlX y hy y (.inr hyX) rfl, hinside y (.inr (.inl hy))]
  refine runs_bind_of_eq (load_eq holda.ne) (runs_bind_of_eq (update_eq hxa.ne) ?_)
  refine runs_bind_of_eq (rbChild_eq holda.ne) (runs_bind_of_eq (update_eq hxa.ne) ?_)
  refine runs_bind_of_eq (rbChild_eq holda.ne) ?_
  simp only [modify_node_of_ne hox, hold₂, rbParentColor_sideNode, child_sideNode]
  refine (((hl₂.modify hlx).modify hlx).setParent holda.aligned hln
    (fun y hy => haddr y (.inl (.inr (.inl hy)))) hl x).then ?_
  rintro - m₅ ⟨hl₅, hsame₅, hroot₅⟩
  have hkeep {y : Ptr} (hyl : y ≠ rootPtr l) (hyx : y ≠ x) : m₅.node y = m₂.node y := by
    rw [hsame₅ y hyl, modify_node_of_ne hyx, modify_node_of_ne hyx]
  have hfinal : Place m₅ k (branch .left c x l (plug k' r)) := by
    refine ⟨?_, treeAt_branch.mpr ⟨?_, hl₅, ?_⟩, ?_, ?_⟩
    · rw [rootPtr_branch]
      refine hframes₁.congr (hroot₅.trans hroot₂) fun y hy => ?_
      have hy₀ := (haddr y (.inr hy)).ne
      have hyx : y ≠ x := fun h => hout y (.inr (.inr (.inl h))) y hy rfl
      rw [hkeep (ne_rootPtr hy₀ fun h => hout y (.inr (.inl h)) y hy rfl) hyx,
        hapart hy₀ hyx fun h => hout y (.inr (.inr (.inr h))) y hy rfl]
    · rw [hsame₅ x (ne_rootPtr hxa.ne hlx), modify_node_self, modify_node_self]
      rw [← hright₂]
      rfl
    · refine hX₂.congr fun y hy => hkeep ?_ (ne_of_mem_of_not_mem hy hxX)
      exact ne_rootPtr (haddr y (.inl (.inr (.inr (.inr hy))))).ne fun h => hlX y h y (.inr hy) rfl
    · simp only [List.nodup_append, nodup_branch, mem_branch]
      exact ⟨⟨hlx, hxX, hln, hXn, fun y hy z hz => hlX y hy z (.inr hz)⟩, hkn,
        fun y hy => hout y (by tauto)⟩
    · simp only [List.mem_append, mem_branch]
      exact fun y hy => haddr y (by tauto)
  refine runs_pure ⟨?_, ?_⟩
  · cases k' <;> rfl
  · rw [← rep_plug_iff, plug_append]
    exact rep_plug_iff.mpr (place_far_iff.mp hfinal)

/-! ### The whole of `rb_erase` -/

/-- The end of `rb_erase`, where a node of colour `c` is gone from above a place. -/
theorem erase_finish {fuel h : Nat} {l : List Ptr} (hplace : Place m k t)
    (hl : (plug k t).inorder = l) (hred : t.NoRedRed) (hheight : t.HasHeight h)
    (hcolor : c = .red → t.color = .black ∧ headColor k = .black)
    (hframes : FramesOk k (h + c.height)) (hfuel : 2 * l.length + 1 < fuel) :
    Runs (if colorBit c = 1#32 then rbEraseColor fuel (rootPtr t) (headPtr k) else pure ()) m
      fun _ m' => ∃ t, Rep m' t ∧ t.IsRedBlack ∧ t.inorder = l := by
  cases c with
  | black =>
    rw [if_pos (by decide)]
    have hlen := length_le_inorder k t
    have hc : t.color.height ≤ 1 := by cases t.color <;> decide
    have hinv : EraseInv l (2 * k.length + t.color.height) (rootPtr t, headPtr k) m :=
      ⟨k, t, h, hplace, hl, rfl, noRedRed_blacken hred, hheight, hframes, rfl⟩
    rw [hl] at hlen
    exact eraseColor_spec hinv (by omega)
  | red =>
    rw [if_neg (by decide)]
    refine runs_pure ⟨_, rep_plug_iff.mpr hplace, isRedBlack_plug_iff.mpr ?_, hl⟩
    exact ⟨h, hred, hheight, fun _ => (hcolor rfl).2, hframes⟩

/-- `rb_erase` of a node with at most one child. -/
theorem erase_outer (hplace : Place m k (branch s c p t nil))
    (hblack : (plug k (branch s c p t nil)).IsRedBlack)
    (hfuel : 2 * (plug k t).inorder.length + 1 < fuel) :
    Runs (do
      let (child, parent, color) ← rbEraseOuter p (rootPtr t)
      if color = 1#32 then rbEraseColor fuel child parent else pure ()) m
      fun _ m' => ∃ t', Rep m' t' ∧ t'.IsRedBlack ∧ t'.inorder = (plug k t).inorder := by
  obtain ⟨n, hred, hheight, hhead, hframes⟩ := isRedBlack_plug_iff.mp hblack
  obtain ⟨hcolor, hredt, -⟩ := noRedRed_branch.mp hred
  obtain ⟨h, rfl, hheightt, -⟩ := hasHeight_branch.mp hheight
  rw [color_branch] at hhead
  refine (eraseOuter_spec hplace).then ?_
  rintro _ m' ⟨rfl, hplace'⟩
  exact erase_finish hplace' rfl hredt hheightt (fun hc => ⟨(hcolor hc).1, hhead hc⟩) hframes hfuel

/-- `rb_erase` of a node with two children. -/
theorem erase_inner (hplace : Place m k (node c l p r))
    (hblack : (plug k (node c l p r)).IsRedBlack) (hl : l ≠ nil) (hr : r ≠ nil)
    (hfuel : 2 * (plug k (node c l p r)).inorder.length + 1 < fuel) :
    Runs (do
      let (child, parent, color) ← rbEraseInner fuel p
      if color = 1#32 then rbEraseColor fuel child parent else pure ()) m
      fun _ m' => ∃ t', Rep m' t' ∧ t'.IsRedBlack ∧
        t'.inorder = before k ++ l.inorder ++ (r.inorder ++ after k) := by
  obtain ⟨k', c', x, r', rfl, hleft⟩ := exists_leftmost hr
  have hwhole : plug k (node c l p (plug k' (node c' nil x r'))) =
      plug (k' ++ ⟨.right, c, p, l⟩ :: k) (node c' nil x r') := by
    rw [plug_append]
    rfl
  obtain ⟨_, ⟨hcolor, -, hredr⟩, ⟨h, rfl, -, hheightr⟩, hhead, hframes⟩ :=
    isRedBlack_plug_iff.mp (hwhole ▸ hblack)
  have hlen := length_le_inorder (k' ++ ⟨.right, c, p, l⟩ :: k) (node c' nil x r')
  rw [← hwhole, List.length_append] at hlen
  rw [(framesOk_relabel (n := h + c'.height) p x).1] at hhead
  rw [(framesOk_relabel p x).2] at hframes
  have hinorder : (plug (k' ++ ⟨.right, c, x, l⟩ :: k) r').inorder =
      before k ++ l.inorder ++ ((plug k' (node c' nil x r')).inorder ++ after k) := by
    rw [plug_append, inorder_leftmost hleft]
    change (plug k (node c l x (plug k' r'))).inorder = _
    rw [inorder_plug]
    simp [inorder]
  have hlen' := inorder_plug k (node c l p (plug k' (node c' nil x r')))
  refine (eraseInner_spec hplace hl hleft (by omega)).then ?_
  rintro _ m' ⟨rfl, hplace'⟩
  refine erase_finish hplace' hinorder hredr hheightr
    (fun hc => ⟨(hcolor hc).2, hhead hc⟩) hframes ?_
  simp only [hlen', inorder, List.length_append, List.length_cons] at hfuel ⊢
  omega

/-- `rb_erase` of a node of a red-black tree gives a red-black tree with the other nodes in the
same order. -/
theorem erase_spec {xs ys : List Ptr} (hrep : Rep m t) (hblack : t.IsRedBlack)
    (hl : t.inorder = xs ++ p :: ys) (hfuel : 2 * t.inorder.length + 1 < fuel) :
    Runs (rbErase fuel p) m fun _ m' =>
      ∃ t', Rep m' t' ∧ t'.IsRedBlack ∧ t'.inorder = xs ++ ys := by
  obtain ⟨k, c, l, r, rfl, hparts⟩ := exists_plug_of_split hrep.nodup hl
  have hplace : Place m k (branch .left c p l r) := rep_plug_iff.mp hrep
  have hlen : (plug k (node c l p r)).inorder.length = xs.length + ys.length + 1 := by
    rw [hl, List.length_append, List.length_cons, Nat.add_assoc]
  unfold rbErase
  refine runs_bind_of_eq hplace.child (runs_bind_of_eq hplace.child_flip ?_)
  by_cases hlnil : l = nil
  · subst hlnil
    rw [rootPtr, if_pos rfl]
    have hout : (plug k r).inorder = xs ++ ys := by
      rw [inorder_plug, ← hparts.1, ← hparts.2]
      simp [inorder]
    refine (erase_outer (s := .right) hplace hblack ?_).imp fun _ m' hm => hout ▸ hm
    rw [hout, List.length_append]
    omega
  · rw [if_neg (rootPtr_ne_zero (fun y hy => hplace.addr y (by simp [mem_branch, hy])) hlnil)]
    by_cases hrnil : r = nil
    · subst hrnil
      rw [rootPtr, if_pos rfl]
      have hout : (plug k l).inorder = xs ++ ys := by
        rw [inorder_plug, ← hparts.1, ← hparts.2]
        simp [inorder]
      refine (erase_outer (s := .left) hplace hblack ?_).imp fun _ m' hm => hout ▸ hm
      rw [hout, List.length_append]
      omega
    · rw [if_neg (rootPtr_ne_zero (fun y hy => hplace.addr y (by simp [mem_branch, hy])) hrnil)]
      refine (erase_inner hplace hblack hlnil hrnil hfuel).imp fun _ m' hm => ?_
      rwa [hparts.1, hparts.2] at hm

end LinuxStm32.Lib
