import RedBlack.Proofs.Shape.Removal

/-!
# Repairs take few rotations

A repair can go all the way up, and paints nodes on every level.  Which node hangs from which
changes at few places only.

* `Skeleton` is a shape without its colours.  `Skeleton.Rotates` is one rotation, at any node,
  and `Skeleton.RotatesWithin k` allows no more than `k` of them.
* `skeleton_fill_congr` and `RotatesWithin.fill` say that a place keeps both: what is the same
  without colours stays the same in it, and what takes `k` rotations takes no more in it.
* `rotatesWithin_repairRed` and `rotatesWithin_repairDeficit` are the two repairs, from any place
  and whatever its colours are.
-/

namespace RedBlack

/-! ## Rotations -/

/-- A tree of nodes without colours. -/
inductive Skeleton where
  | leaf
  | node (left : Skeleton) (id : NodeId) (right : Skeleton)
  deriving DecidableEq, Repr

namespace Skeleton

/-- One rotation leads from one tree to the other.  It is at the top or further down. -/
inductive Rotates : Skeleton → Skeleton → Prop
  /-- The left child comes to the top. -/
  | liftLeft (x y z : Skeleton) (n m : NodeId) :
      Rotates (node (node x m y) n z) (node x m (node y n z))
  /-- The right child comes to the top. -/
  | liftRight (x y z : Skeleton) (n m : NodeId) :
      Rotates (node x n (node y m z)) (node (node x n y) m z)
  | inLeft {l l' : Skeleton} (n : NodeId) (r : Skeleton) (h : Rotates l l') :
      Rotates (node l n r) (node l' n r)
  | inRight (l : Skeleton) (n : NodeId) {r r' : Skeleton} (h : Rotates r r') :
      Rotates (node l n r) (node l n r')

/-- At most `k` rotations, one after the other, lead from one tree to the other. -/
inductive RotatesWithin : (k : Nat) → Skeleton → Skeleton → Prop
  | stay (k : Nat) (s : Skeleton) : RotatesWithin k s s
  | turn {k : Nat} {s s' s'' : Skeleton} (h : Rotates s s') (rest : RotatesWithin k s' s'') :
      RotatesWithin (k + 1) s s''

namespace RotatesWithin

variable {k j : Nat} {s s' s'' l l' r r' : Skeleton}

theorem mono (h : RotatesWithin k s s') (hkj : k ≤ j) : RotatesWithin j s s' := by
  induction h generalizing j with
  | stay => exact .stay ..
  | turn h _ ih =>
    obtain ⟨j, rfl⟩ : ∃ i, j = i + 1 := ⟨j - 1, by omega⟩
    exact .turn h (ih (by omega))

theorem trans (h : RotatesWithin k s s') (h' : RotatesWithin j s' s'') :
    RotatesWithin (k + j) s s'' := by
  induction h with
  | stay => exact h'.mono (Nat.le_add_left ..)
  | turn h _ ih =>
    rw [Nat.add_right_comm]
    exact .turn h (ih h')

theorem inLeft (h : RotatesWithin k l l') (n : NodeId) (r : Skeleton) :
    RotatesWithin k (node l n r) (node l' n r) := by
  induction h with
  | stay => exact .stay ..
  | turn h _ ih => exact .turn (.inLeft n r h) ih

theorem inRight (h : RotatesWithin k r r') (l : Skeleton) (n : NodeId) :
    RotatesWithin k (node l n r) (node l n r') := by
  induction h with
  | stay => exact .stay ..
  | turn h _ ih => exact .turn (.inRight l n h) ih

end RotatesWithin

end Skeleton

namespace Shape

open Skeleton

/-! ## Shapes without their colours -/

/-- What is left of a shape without its colours. -/
def skeleton : Shape → Skeleton
  | leaf => .leaf
  | node _ l n r => .node l.skeleton n r.skeleton

@[simp] theorem skeleton_paint (c : Color) (s : Shape) : (s.paint c).skeleton = s.skeleton := by
  cases s <;> rfl

@[simp] theorem skeleton_paintBelow (d : Side) (c : Color) (s : Shape) :
    (s.paintBelow d c).skeleton = s.skeleton := by
  cases s <;> cases d <;> simp [paintBelow, skeleton]

theorem skeleton_branch_congr {x x' y y' : Shape} (hx : x.skeleton = x'.skeleton)
    (hy : y.skeleton = y'.skeleton) (d : Side) (c c' : Color) (n : NodeId) :
    (branch d c n x y).skeleton = (branch d c' n x' y').skeleton := by
  cases d <;> simp [branch, skeleton, hx, hy]

theorem skeleton_fill_congr {s s' : Shape} (h : s.skeleton = s'.skeleton) (p : Path) :
    (p.fill s).skeleton = (p.fill s').skeleton := by
  induction p generalizing s s' with
  | nil => exact h
  | cons f up ih => exact ih (skeleton_branch_congr h rfl ..)

/-- The colours of a node and of its other child do not show. -/
theorem skeleton_close_paint (f : Frame) (c c' : Color) (s : Shape) :
    (Frame.close { f with color := c, other := f.other.paint c' } s).skeleton =
      (f.close s).skeleton :=
  skeleton_branch_congr rfl (skeleton_paint ..) ..

end Shape

namespace Skeleton.RotatesWithin

open Shape

variable {k : Nat} {s s' : Shape}

theorem branch (h : RotatesWithin k s.skeleton s'.skeleton) (d : Side) (c : Color) (n : NodeId)
    (y : Shape) : RotatesWithin k (branch d c n s y).skeleton (branch d c n s' y).skeleton := by
  cases d with
  | left => exact h.inLeft n y.skeleton
  | right => exact h.inRight y.skeleton n

theorem fill (h : RotatesWithin k s.skeleton s'.skeleton) (p : Path) :
    RotatesWithin k (p.fill s).skeleton (p.fill s').skeleton := by
  induction p generalizing s s' with
  | nil => exact h
  | cons f up ih => exact ih (h.branch ..)

end Skeleton.RotatesWithin

namespace Shape

open Skeleton

/-- Lifting a child is one rotation, or none where there is no child. -/
theorem rotatesWithin_lift (d : Side) (s : Shape) :
    RotatesWithin 1 s.skeleton (s.lift d).skeleton := by
  unfold lift
  split
  · exact .turn (.liftLeft ..) (.stay ..)
  · exact .turn (.liftRight ..) (.stay ..)
  · exact .stay ..

/-! ## The repair of a red node -/

theorem rotatesWithin_straighten (d : Side) (p : Frame) (s : Shape) :
    RotatesWithin 1 (p.close s).skeleton (straighten d p s).skeleton := by
  unfold straighten
  split
  · exact .stay ..
  · exact rotatesWithin_lift ..

/-- The repair of a red node takes two rotations at most. -/
theorem rotatesWithin_repairRed (p : Path) (s : Shape) :
    RotatesWithin 2 (p.fill s).skeleton (repairRed p s).skeleton := by
  fun_induction repairRed p s with
  | case1 s =>
    rw [skeleton_paint]
    exact .stay ..
  | case2 p s => exact .stay ..
  | case3 p g up s => exact .stay ..
  | case4 p g up s hp hg ih =>
    have hsame : (g.close (p.close s)).skeleton =
        ({ g with color := .red, other := g.other.paint .black }.close
          ((p.close s).paint .black)).skeleton :=
      skeleton_branch_congr (skeleton_paint ..).symm (skeleton_paint ..).symm ..
    rw [Path.fill, Path.fill, skeleton_fill_congr hsame]
    exact ih
  | case5 p g up s =>
    have hinner := (rotatesWithin_straighten g.side p s).branch g.side g.color g.id g.other
    exact (hinner.trans (rotatesWithin_lift ..)).fill up

/-! ## The repair of a deficit -/

/-- One frame takes two rotations at most. -/
theorem rotatesWithin_balanceSibling (f : Frame) (s : Shape) :
    RotatesWithin 2 (f.close s).skeleton (balanceSibling f s).1.skeleton := by
  simp only [balanceSibling]
  split
  · rw [skeleton_paintBelow]
    exact (rotatesWithin_lift ..).mono (Nat.le_succ _)
  · split
    · -- The sibling turns in the other slot of the frame, before the frame does.
      have hother := (rotatesWithin_lift f.side f.other).branch f.side.opposite f.color f.id s
      rw [branch_opposite, branch_opposite] at hother
      rw [skeleton_paintBelow]
      exact hother.trans (rotatesWithin_lift ..)
    · split
      · rw [skeleton_close_paint]
        exact .stay ..
      · rw [skeleton_close_paint]
        exact .stay ..

/-- A frame that is short afterwards was painted only. -/
theorem skeleton_balanceSibling_of_short {f : Frame} {s : Shape}
    (h : (balanceSibling f s).2 = true) :
    (balanceSibling f s).1.skeleton = (f.close s).skeleton := by
  simp only [balanceSibling] at h ⊢
  split at h
  · cases h
  · next hfar =>
    rw [if_neg hfar]
    split at h
    · cases h
    · next hnear =>
      rw [if_neg hnear]
      split at h
      · cases h
      · next hred =>
        rw [if_neg hred]
        exact skeleton_close_paint ..

/-- The repair of a deficit takes three rotations at most: a red sibling is lifted once, and the
frame after that is the last one. -/
theorem rotatesWithin_repairDeficit (p : Path) (s : Shape) :
    RotatesWithin 3 (p.fill s).skeleton (repairDeficit p s).skeleton := by
  fun_induction repairDeficit p s with
  | case1 s => exact .stay ..
  | case2 f up s l m r hother near far repaired short =>
    rename_i hrep
    have hbalance := rotatesWithin_balanceSibling { f with color := .red, other := near } s
    rw [hrep] at hbalance
    have hlift : ((f.close s).lift f.side.opposite).skeleton =
        (Frame.close ⟨f.side, f.color, m, far⟩
          (Frame.close ⟨f.side, .red, f.id, near⟩ s)).skeleton := by
      rw [Frame.close, hother]
      cases hd : f.side <;> simp [near, far, slot, Side.opposite, Frame.close, branch, skeleton,
        hd, lift]
    have hone := rotatesWithin_lift f.side.opposite (f.close s)
    rw [hlift] at hone
    exact (hone.trans (hbalance.branch f.side f.color m far)).fill up
  | case3 f up s repaired hrep =>
    have hbalance := rotatesWithin_balanceSibling f s
    rw [hrep] at hbalance
    exact (hbalance.mono (Nat.le_succ _)).fill up
  | case4 f up s repaired hrep hother ih =>
    have hsame := skeleton_balanceSibling_of_short (f := f) (s := s) (by rw [hrep])
    rw [hrep] at hsame
    rw [Path.fill, ← skeleton_fill_congr hsame]
    exact ih

end Shape

end RedBlack
