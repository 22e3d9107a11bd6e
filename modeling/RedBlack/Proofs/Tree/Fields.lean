import RedBlack.Tree.Insertion
import RedBlack.Tree.Removal
import RedBlack.Tree.Replacement

/-!
# What a write changes, field by field

Every write touches one field of one node, or the top.  This module says so for each
field apart: a read after a write is the read before it, or the value written.  The
link moves `adopt`, `fill` and `redirect` get the same laws, so that later proofs
follow a sequence of writes by rewriting alone.
-/

namespace RedBlack.Tree

variable (t : Tree) (n m : NodeId) (p c : Option NodeId) (d e : Side) (color : Color)

/-! ## The parent -/

theorem parent_setParent :
    (t.setParent n p).parent m = if m = n then p else t.parent m := by
  rw [parent, record_setParent]
  split <;> rfl

@[simp] theorem parent_setColor : (t.setColor n color).parent m = t.parent m := by
  rw [parent, record_setColor]
  split
  · next h => rw [h]; rfl
  · rfl

@[simp] theorem parent_setChild : (t.setChild n d c).parent m = t.parent m := by
  rw [parent, record_setChild]
  split
  · next h => rw [h, Record.parent_setChild]; rfl
  · rfl

@[simp] theorem parent_setTop : (t.setTop c).parent m = t.parent m := rfl

/-! ## The colour -/

@[simp] theorem color_setParent : (t.setParent n p).color m = t.color m := by
  rw [Tree.color, record_setParent]
  split
  · next h => rw [h]; rfl
  · rfl

theorem color_setColor :
    (t.setColor n color).color m = if m = n then color else t.color m := by
  rw [Tree.color, record_setColor]
  split <;> rfl

@[simp] theorem color_setChild : (t.setChild n d c).color m = t.color m := by
  rw [Tree.color, record_setChild]
  split
  · next h => rw [h, Record.color_setChild]; rfl
  · rfl

@[simp] theorem color_setTop : (t.setTop c).color m = t.color m := rfl

/-! ## The children -/

@[simp] theorem child_setParent : (t.setParent n p).child m d = t.child m d := by
  rw [child, record_setParent]
  split
  · next h => rw [h]; cases d <;> rfl
  · rfl

@[simp] theorem child_setColor : (t.setColor n color).child m d = t.child m d := by
  rw [child, record_setColor]
  split
  · next h => rw [h]; cases d <;> rfl
  · rfl

theorem child_setChild :
    (t.setChild n d c).child m e = if m = n ∧ e = d then c else t.child m e := by
  rw [child, record_setChild]
  by_cases hm : m = n
  · rw [if_pos hm, Record.child_setChild]
    by_cases he : e = d
    · rw [if_pos he, if_pos ⟨hm, he⟩]
    · rw [if_neg he, if_neg fun h => he h.2, hm]
      rfl
  · rw [if_neg hm, if_neg fun h => hm h.1]
    rfl

@[simp] theorem child_setTop : (t.setTop c).child m d = t.child m d := rfl

/-! ## Link moves -/

@[simp] theorem top_adopt : (t.adopt c n).top = t.top := by
  cases c <;> rfl

theorem parent_adopt :
    (t.adopt c n).parent m = if c = some m then some n else t.parent m := by
  cases c with
  | none => simp [adopt]
  | some k => simp [adopt, parent_setParent, eq_comm]

@[simp] theorem color_adopt : (t.adopt c n).color m = t.color m := by
  cases c <;> simp [adopt]

@[simp] theorem child_adopt : (t.adopt c n).child m d = t.child m d := by
  cases c <;> simp [adopt]

@[simp] theorem parent_fill (slot : Slot) : (t.fill slot c).parent m = t.parent m := by
  cases slot <;> simp [fill]

@[simp] theorem color_fill (slot : Slot) : (t.fill slot c).color m = t.color m := by
  cases slot <;> simp [fill]

theorem top_fill (slot : Slot) : (t.fill slot c).top = if slot = .top then c else t.top := by
  cases slot <;> simp [fill]

theorem child_fill (slot : Slot) :
    (t.fill slot c).child m e = if slot = .under m e then c else t.child m e := by
  cases slot with
  | top => simp [fill]
  | under k d => simp [fill, child_setChild, eq_comm]

@[simp] theorem parent_redirect (k : NodeId) :
    (t.redirect k c p).parent m = t.parent m := by
  unfold redirect
  split
  · rfl
  · split <;> simp

@[simp] theorem color_redirect (k : NodeId) : (t.redirect k c p).color m = t.color m := by
  unfold redirect
  split
  · rfl
  · split <;> simp

/-! ## Whole records -/

variable {t} {t' : Tree} {m}

/-- A record is its fields. -/
theorem record_eq_of_fields (hparent : t'.parent m = t.parent m) (hcolor : t'.color m = t.color m)
    (hchild : ∀ d, t'.child m d = t.child m d) : t'.record m = t.record m := by
  have hleft := hchild .left
  have hright := hchild .right
  simp only [parent, Tree.color, child, Record.child] at hparent hcolor hleft hright
  cases hr : t'.record m
  cases hr' : t.record m
  simp_all

variable {n p c d color}

theorem record_setParent_of_ne (h : m ≠ n) : (t.setParent n p).record m = t.record m := by
  rw [record_setParent, if_neg h]

theorem record_setColor_of_ne (h : m ≠ n) : (t.setColor n color).record m = t.record m := by
  rw [record_setColor, if_neg h]

theorem record_setChild_of_ne (h : m ≠ n) : (t.setChild n d c).record m = t.record m := by
  rw [record_setChild, if_neg h]

theorem record_setRecord_of_ne {r : Record} (h : m ≠ n) :
    (t.setRecord n r).record m = t.record m := by
  rw [record_setRecord, if_neg h]

theorem record_adopt_of_ne (h : c ≠ some m) : (t.adopt c n).record m = t.record m := by
  cases c with
  | none => rfl
  | some k => exact record_setParent_of_ne fun hm => h (by rw [hm])

theorem record_fill_of_ne {slot : Slot} (h : slot.parent ≠ some m) :
    (t.fill slot c).record m = t.record m := by
  cases slot with
  | top => rfl
  | under k d => exact record_setChild_of_ne fun hm => h (by rw [hm]; rfl)

end RedBlack.Tree
