import Mathlib.Data.List.Count
import Mathlib.Data.List.Nodup

/-!
# Counted references

Objects with a name and a number of uses, and references to objects by their names. `Counted` says
that the uses of an object are the references to it, that there are some, and that no reference
dangles. It is kept when an object is made with its first reference, when a reference to an object
is added, and when one is dropped, together with the object if it was the last.
-/

namespace LinuxStm32.Base

universe u v w

variable {α : Type u} {β : Type v} {ι : Type w} [DecidableEq ι]

/-- The uses of the objects are the references to them, and every reference has its object. -/
structure Counted (name : α → ι) (uses : α → Int) (target : β → ι) (objs : List α)
    (refs : List β) : Prop where
  nodup : (objs.map name).Nodup
  uses_eq : ∀ o ∈ objs, uses o = (refs.countP (target · = name o) : Nat)
  pos : ∀ o ∈ objs, 0 < uses o
  owned : ∀ r ∈ refs, ∃ o ∈ objs, target r = name o

/-- Change the object of a name. -/
def updateNamed (name : α → ι) (i : ι) (f : α → α) (objs : List α) : List α :=
  objs.map fun o => if name o = i then f o else o

namespace Counted

variable {name : α → ι} {uses : α → Int} {target : β → ι} {objs objs' : List α} {refs : List β}
  {x : α} {r : β} {f : α → α}

theorem nil : Counted name uses target ([] : List α) ([] : List β) where
  nodup := List.nodup_nil
  uses_eq _ ho := absurd ho List.not_mem_nil
  pos _ ho := absurd ho List.not_mem_nil
  owned _ hr := absurd hr List.not_mem_nil

/-- Names tell objects apart. -/
theorem eq_of_name (h : Counted name uses target objs refs) {o p : α} (ho : o ∈ objs)
    (hp : p ∈ objs) (hname : name o = name p) : o = p :=
  List.inj_on_of_nodup_map h.nodup ho hp hname

/-- The order of the objects does not matter. -/
theorem perm (h : Counted name uses target objs refs) (hp : objs'.Perm objs) :
    Counted name uses target objs' refs where
  nodup := (hp.map name).nodup_iff.mpr h.nodup
  uses_eq o ho := h.uses_eq o (hp.mem_iff.mp ho)
  pos o ho := h.pos o (hp.mem_iff.mp ho)
  owned r hr := by
    obtain ⟨o, ho, heq⟩ := h.owned r hr
    exact ⟨o, hp.mem_iff.mpr ho, heq⟩

/-- A new object has no references yet. -/
theorem countP_eq_zero (h : Counted name uses target objs refs) {i : ι}
    (hi : i ∉ objs.map name) : refs.countP (target · = i) = 0 := by
  apply List.countP_eq_zero.mpr
  intro r hr heq
  obtain ⟨o, ho, htarget⟩ := h.owned r hr
  have hname : name o = i := htarget.symm.trans (of_decide_eq_true heq)
  exact hi (hname ▸ List.mem_map_of_mem ho)

/-- One reference more. -/
theorem countP_cons (i : ι) : (r :: refs).countP (target · = i) =
    refs.countP (target · = i) + if target r = i then 1 else 0 := by
  rw [List.countP_cons]
  simp

/-- An object is made with its first reference. -/
theorem add (h : Counted name uses target objs refs) (hx : name x ∉ objs.map name)
    (hone : uses x = 1) (hr : target r = name x) :
    Counted name uses target (x :: objs) (r :: refs) where
  nodup := List.nodup_cons.mpr ⟨hx, h.nodup⟩
  uses_eq o ho := by
    rcases List.mem_cons.mp ho with rfl | ho
    · rw [countP_cons, if_pos hr, h.countP_eq_zero hx, hone]
      rfl
    · have hne : ¬ target r = name o := by
        intro heq
        exact hx (List.mem_map.mpr ⟨o, ho, heq.symm.trans hr⟩)
      rw [countP_cons, if_neg hne]
      exact h.uses_eq o ho
  pos o ho := by
    rcases List.mem_cons.mp ho with rfl | ho
    · omega
    · exact h.pos o ho
  owned q hq := by
    rcases List.mem_cons.mp hq with rfl | hq
    · exact ⟨x, List.mem_cons_self, hr⟩
    · obtain ⟨o, ho, heq⟩ := h.owned q hq
      exact ⟨o, List.mem_cons_of_mem _ ho, heq⟩

/-- The uses of one object and the references change in step. -/
theorem update (h : Counted name uses target objs refs) (hx : x ∈ objs)
    (hname : ∀ o, name (f o) = name o) {refs' : List β} (hpos : 0 < uses (f x))
    (hcount : uses (f x) = (refs'.countP (target · = name x) : Nat))
    (hrest : ∀ i, i ≠ name x → refs'.countP (target · = i) = refs.countP (target · = i))
    (howned : ∀ q ∈ refs', target q = name x ∨ q ∈ refs) :
    Counted name uses target (updateNamed name (name x) f objs) refs' := by
  have hnames : ∀ o, name (if name o = name x then f o else o) = name o := by
    intro o
    split_ifs
    · exact hname o
    · rfl
  constructor
  · rw [updateNamed, List.map_map]
    have hcomp : name ∘ (fun o => if name o = name x then f o else o) = name := funext hnames
    rw [hcomp]
    exact h.nodup
  · intro o ho
    obtain ⟨p, hp, rfl⟩ := List.mem_map.mp ho
    rw [hnames]
    split_ifs with heq
    · obtain rfl := h.eq_of_name hp hx heq
      exact hcount
    · rw [hrest _ heq]
      exact h.uses_eq p hp
  · intro o ho
    obtain ⟨p, hp, rfl⟩ := List.mem_map.mp ho
    split_ifs with heq
    · obtain rfl := h.eq_of_name hp hx heq
      exact hpos
    · exact h.pos p hp
  · intro q hq
    have hobj : ∃ o ∈ objs, target q = name o := by
      rcases howned q hq with heq | hq
      · exact ⟨x, hx, heq⟩
      · exact h.owned q hq
    obtain ⟨o, ho, heq⟩ := hobj
    exact ⟨_, List.mem_map_of_mem ho, heq.trans (hnames o).symm⟩

/-- A reference to an object is added. -/
theorem share (h : Counted name uses target objs refs) (hx : x ∈ objs) (hr : target r = name x)
    (hname : ∀ o, name (f o) = name o) (huses : uses (f x) = uses x + 1) :
    Counted name uses target (updateNamed name (name x) f objs) (r :: refs) := by
  have hpos := h.pos x hx
  have heq := h.uses_eq x hx
  apply h.update hx hname
  · omega
  · rw [countP_cons, if_pos hr]
    omega
  · intro i hi
    rw [countP_cons, if_neg (hr ▸ hi.symm), Nat.add_zero]
  · intro q hq
    rcases List.mem_cons.mp hq with rfl | hq
    · exact .inl hr
    · exact .inr hq

section Drop

variable [DecidableEq β]

/-- One reference fewer. -/
theorem countP_erase (hr : r ∈ refs) (i : ι) :
    (refs.erase r).countP (target · = i) =
      refs.countP (target · = i) - if target r = i then 1 else 0 := by
  rw [List.countP_erase]
  simp [hr]

/-- A reference to an object is dropped that is not the last. -/
theorem drop (h : Counted name uses target objs refs) (hx : x ∈ objs) (hr : r ∈ refs)
    (htarget : target r = name x) (hmore : uses x ≠ 1)
    (hname : ∀ o, name (f o) = name o) (huses : uses (f x) = uses x - 1) :
    Counted name uses target (updateNamed name (name x) f objs) (refs.erase r) := by
  have hpos := h.pos x hx
  have heq := h.uses_eq x hx
  apply h.update hx hname
  · omega
  · rw [countP_erase hr, if_pos htarget]
    omega
  · intro i hi
    rw [countP_erase hr, if_neg (htarget ▸ hi.symm), Nat.sub_zero]
  · exact fun q hq => .inr (List.mem_of_mem_erase hq)

/-- The last reference to an object is dropped, and the object with it. -/
theorem dropLast [DecidableEq α] (h : Counted name uses target objs refs) (hx : x ∈ objs)
    (hr : r ∈ refs) (htarget : target r = name x) (hone : uses x = 1) :
    Counted name uses target (objs.erase x) (refs.erase r) := by
  have huses := h.uses_eq x hx
  have hnone : (refs.erase r).countP (target · = name x) = 0 := by
    rw [countP_erase hr, if_pos htarget]
    omega
  have hne : ∀ o ∈ objs.erase x, name o ≠ name x := by
    intro o ho hname
    have hnodup : objs.Nodup := .of_map name h.nodup
    obtain rfl := h.eq_of_name (List.mem_of_mem_erase ho) hx hname
    exact hnodup.not_mem_erase ho
  constructor
  · exact h.nodup.sublist (List.erase_sublist.map name)
  · intro o ho
    rw [countP_erase hr, if_neg, Nat.sub_zero]
    · exact h.uses_eq o (List.mem_of_mem_erase ho)
    · rw [htarget]
      exact (hne o ho).symm
  · exact fun o ho => h.pos o (List.mem_of_mem_erase ho)
  · intro q hq
    obtain ⟨o, ho, heq⟩ := h.owned q (List.mem_of_mem_erase hq)
    have hother : o ≠ x := by
      rintro rfl
      exact List.countP_eq_zero.mp hnone q hq (decide_eq_true heq)
    exact ⟨o, (List.mem_erase_of_ne hother).mpr ho, heq⟩

end Drop

end Counted

end LinuxStm32.Base
