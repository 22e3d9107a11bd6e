import RedBlack.Proofs.Shape.Nodes

/-!
# The order of a shape, from either side

A walk goes through a shape towards one of its two sides.  Here the order of the nodes
is said for both directions at once.

* `Shape.toward d` lists the nodes of a shape towards side `d`, and `Path.ahead d` those
  that lie to side `d` of a place, the closest first.
* `toward_fill` puts the two together: what follows a node is the subtree on its side
  `d`, and then what lies ahead of its place.
-/

namespace RedBlack

/-- The nodes in order, towards side `d`. -/
def Shape.toward (d : Side) (s : Shape) : List NodeId :=
  match d with
  | .left => s.toList.reverse
  | .right => s.toList

/-- The nodes to side `d` of a place, the closest first. -/
def Path.ahead (d : Side) (p : Path) : List NodeId :=
  match d with
  | .left => p.before.reverse
  | .right => p.after

namespace Shape

@[simp] theorem toward_left (s : Shape) : s.toward .left = s.toList.reverse := rfl

@[simp] theorem toward_right (s : Shape) : s.toward .right = s.toList := rfl

@[simp] theorem toward_leaf (d : Side) : leaf.toward d = [] := by
  cases d <;> rfl

theorem toward_opposite (d : Side) (s : Shape) : s.toward d.opposite = (s.toward d).reverse := by
  cases d with
  | left => exact s.toList.reverse_reverse.symm
  | right => rfl

theorem nodup_toward {s : Shape} (h : s.toList.Nodup) (d : Side) : (s.toward d).Nodup := by
  cases d with
  | left => exact List.nodup_reverse.mpr h
  | right => exact h

/-- Towards side `d` the subtree there comes last. -/
theorem toward_branch (d : Side) (c : Color) (n : NodeId) (x y : Shape) :
    (branch d c n x y).toward d = y.toward d ++ n :: x.toward d := by
  cases d <;> simp [branch, toList]

end Shape

namespace Path

open Shape

@[simp] theorem ahead_nil (d : Side) : ahead d [] = [] := by
  cases d <;> rfl

/-- A node with its open slot on side `d` lies behind. -/
theorem ahead_cons_of_eq {f : Frame} {d : Side} (h : f.side = d) (up : Path) :
    ahead d (f :: up) = ahead d up := by
  cases d <;> simp [ahead, before, after, h]

/-- A node with its open slot on the other side comes next, and then what hangs from it. -/
theorem ahead_cons_of_ne {f : Frame} {d : Side} (h : f.side ≠ d) (up : Path) :
    ahead d (f :: up) = f.id :: (f.other.toward d ++ ahead d up) := by
  have hside : f.side = d.opposite := Side.eq_opposite_of_ne h
  cases d <;> simp [ahead, before, after, hside, Side.opposite]

/-- What comes towards side `d`: the nodes on the other side of the place, those of what
hangs there, and the nodes ahead. -/
theorem toward_fill (d : Side) (p : Path) (s : Shape) :
    (p.fill s).toward d = (p.ahead d.opposite).reverse ++ s.toward d ++ p.ahead d := by
  cases d <;> simp [ahead, toList_fill, Side.opposite]

end Path

end RedBlack
