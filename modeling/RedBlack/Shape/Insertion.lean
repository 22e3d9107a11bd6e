import RedBlack.Shape.Path

/-!
# Repairing a red node, on shapes

The repair after an insertion as a function on places: a shape with a red top
hangs in a place, and the node over it may be red as well.  It takes two frames
at a time, the parent `p` and the grandparent `g`.
-/

namespace RedBlack.Shape

/-- The double rotation of the inner grandchild: when the child of `g` in slot `d`
has its red node on the inner side, that one is lifted first. -/
def straighten (d : Side) (p : Frame) (s : Shape) : Shape :=
  if p.side = d then p.close s else (p.close s).lift d.opposite

/-- Repairs a shape in which the red top of `s`, hung into the place, may be the
top or hang below a red node. -/
def repairRed : Path → Shape → Shape
  | [], s => s.paint .black
  | [p], s => p.close s
  | p :: g :: up, s =>
    if p.color = .black then Path.fill (p :: g :: up) s
    else if g.other.isRed then
      repairRed up
        ({ g with color := .red, other := g.other.paint .black }.close ((p.close s).paint .black))
    else Path.fill up ((g.close (straighten g.side p s)).lift g.side)

/-- Hangs the new node `n` into a place as a red leaf, and repairs. -/
def insertAt (p : Path) (n : NodeId) : Shape := repairRed p (node .red leaf n leaf)

theorem toList_straighten (d : Side) (p : Frame) (s : Shape) :
    (straighten d p s).toList = (p.close s).toList := by
  unfold straighten
  split <;> simp

/-- The repair moves no node in the order. -/
theorem toList_repairRed (p : Path) (s : Shape) :
    (repairRed p s).toList = p.before ++ s.toList ++ p.after := by
  fun_induction repairRed p s with
  | case1 s => simp [Path.before, Path.after]
  | case2 p s => exact Path.toList_fill [p] s
  | case3 p g up s => rw [Path.toList_fill]
  | case4 p g up s hp hg ih =>
    rw [ih, ← Path.toList_fill (p :: g :: up), Path.fill, Path.fill, Path.toList_fill]
    simp [Frame.toList_close, Path.before, Path.after]
  | case5 p g up s =>
    rw [← Path.toList_fill (p :: g :: up), Path.fill, Path.fill, Path.toList_fill,
      Path.toList_fill, toList_lift]
    simp [Frame.toList_close, toList_straighten]

/-- An insertion adds its node exactly at its place in the order. -/
theorem toList_insertAt (p : Path) (n : NodeId) :
    (insertAt p n).toList = p.before ++ n :: p.after := by
  simp [insertAt, toList_repairRed, toList]

end RedBlack.Shape
