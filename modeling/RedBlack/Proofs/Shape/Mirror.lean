import RedBlack.Proofs.Shape.Removal
import RedBlack.Shape.Insertion

/-!
# Repairs in the mirror

Every case of the repairs is written once for both sides, in terms of the side that a place is
on and of the opposite one.  So exchanging left and right before a repair or after it comes
to the same.

* `flip_…` says so for each move and each repair, of shapes and of the places that they hang in.
* `flip_removeAt` needs a node that has not both children.  With two of them it is always a node
  of the right side that takes the place, and the mirror does not change that.
-/

namespace RedBlack

/-- The frame with its sides exchanged. -/
def Frame.flip (f : Frame) : Frame := ⟨f.side.opposite, f.color, f.id, f.other.flip⟩

/-- The place with all sides exchanged. -/
def Path.flip (p : Path) : Path := p.map Frame.flip

@[simp] theorem Path.flip_cons (f : Frame) (up : Path) :
    Path.flip (f :: up) = f.flip :: Path.flip up := rfl

namespace Shape

/-! ## Moves -/

@[simp] theorem top_flip (s : Shape) : s.flip.top = s.top := by
  cases s <;> rfl

@[simp] theorem isRed_flip (s : Shape) : s.flip.isRed = s.isRed := by
  cases s <;> rfl

@[simp] theorem flip_branch (d : Side) (c : Color) (n : NodeId) (x y : Shape) :
    (branch d c n x y).flip = branch d.opposite c n x.flip y.flip := by
  cases d <;> rfl

@[simp] theorem flip_paint (c : Color) (s : Shape) : (s.paint c).flip = s.flip.paint c := by
  cases s <;> rfl

@[simp] theorem flip_slot (d : Side) (s : Shape) : (s.slot d).flip = s.flip.slot d.opposite := by
  cases s <;> cases d <;> rfl

@[simp] theorem flip_paintBelow (d : Side) (c : Color) (s : Shape) :
    (s.paintBelow d c).flip = s.flip.paintBelow d.opposite c := by
  cases s <;> cases d <;> simp [paintBelow, flip, Side.opposite]

@[simp] theorem flip_lift (d : Side) (s : Shape) : (s.lift d).flip = s.flip.lift d.opposite := by
  cases s with
  | leaf => cases d <;> rfl
  | node c l n r =>
    cases d with
    | left => cases l <;> rfl
    | right => cases r <;> rfl

@[simp] theorem flip_close (f : Frame) (s : Shape) : (f.close s).flip = f.flip.close s.flip := by
  rw [Frame.close, flip_branch]
  rfl

theorem flip_fill (p : Path) (s : Shape) : (p.fill s).flip = p.flip.fill s.flip := by
  induction p generalizing s with
  | nil => rfl
  | cons f up ih => rw [Path.fill, ih, flip_close, Path.flip_cons, Path.fill]

/-! ## The rules -/

theorem balanced_flip {s : Shape} {h : Nat} : s.flip.Balanced h ↔ s.Balanced h := by
  induction s generalizing h with
  | leaf => rfl
  | node c l n r ihl ihr =>
    have hnode : (node c l n r).flip = branch .right c n l.flip r.flip := rfl
    rw [hnode, balanced_branch, balanced_node]
    simp only [isRed_flip, ihl, ihr]

theorem isRedBlack_flip {s : Shape} : s.flip.IsRedBlack ↔ s.IsRedBlack := by
  simp only [isRedBlack_iff, isRed_flip, balanced_flip]

/-! ## The repair of a red node -/

theorem flip_straighten (d : Side) (p : Frame) (s : Shape) :
    (straighten d p s).flip = straighten d.opposite p.flip s.flip := by
  unfold straighten
  by_cases hd : p.side = d
  · subst hd
    simp [Frame.flip]
  · have hne : p.flip.side ≠ d.opposite := by
      intro h
      have hside : p.side = d := by simpa [Frame.flip] using congrArg Side.opposite h
      exact hd hside
    simp [hd, hne]

theorem flip_repairRed (p : Path) (s : Shape) :
    (repairRed p s).flip = repairRed p.flip s.flip := by
  fun_induction repairRed p s with
  | case1 s => exact flip_paint .black s
  | case2 p s => exact flip_close p s
  | case3 p g up s hp =>
    rw [flip_fill]
    simp [repairRed, Frame.flip, hp]
  | case4 p g up s hp hg ih =>
    rw [ih]
    simp [repairRed, Frame.flip, hp, hg]
  | case5 p g up s hp hg =>
    rw [flip_fill]
    simp [repairRed, Frame.flip, hp, hg, flip_straighten]

theorem flip_insertAt (p : Path) (n : NodeId) : (insertAt p n).flip = insertAt p.flip n :=
  flip_repairRed p _

/-! ## The repair of a deficit -/

theorem isRed_slot_flip (d : Side) (s : Shape) :
    (s.flip.slot d.opposite).isRed = (s.slot d).isRed := by
  rw [← flip_slot, isRed_flip]

theorem balanceSibling_flip (f : Frame) (s : Shape) :
    balanceSibling f.flip s.flip = ((balanceSibling f s).1.flip, (balanceSibling f s).2) := by
  obtain ⟨d, c, n, other⟩ := f
  simp only [balanceSibling, Frame.flip, isRed_slot_flip]
  by_cases hfar : (other.slot d.opposite).isRed = true
  · simp [hfar, Frame.flip]
  by_cases hnear : (other.slot d).isRed = true
  · simp [hfar, hnear, Frame.flip]
  cases c with
  | red => simp [hfar, hnear, Frame.flip]
  | black => simp [hfar, hnear, Frame.flip]

theorem flip_repairDeficit (p : Path) (s : Shape) :
    (repairDeficit p s).flip = repairDeficit p.flip s.flip := by
  induction p generalizing s with
  | nil => rfl
  | cons f up ih =>
    by_cases hred : f.other.isRed = true
    · obtain ⟨m, far, near, hm⟩ := exists_branch_of_isRed f.side.opposite hred
      have hflip : f.flip.other = branch f.flip.side.opposite .red m far.flip near.flip := by
        rw [Frame.flip, hm, flip_branch]
      have hframe : { f.flip with color := .red, other := near.flip } =
          Frame.flip { f with color := .red, other := near } := rfl
      rw [repairDeficit_cons_of_red hm, Path.flip_cons, repairDeficit_cons_of_red hflip, hframe,
        balanceSibling_flip, flip_fill]
      rfl
    · have hb : f.other.isRed = false := by simpa using hred
      have hflip : f.flip.other.isRed = false := (isRed_flip f.other).trans hb
      rw [repairDeficit_cons_of_black hb, Path.flip_cons, repairDeficit_cons_of_black hflip,
        balanceSibling_flip]
      dsimp only
      split
      · exact ih _
      · exact flip_fill up _

/-! ## Removal -/

theorem flip_settle (p : Path) (c : Color) (rest : Shape) :
    (settle p c rest).flip = settle p.flip c rest.flip := by
  cases rest with
  | leaf =>
    cases c with
    | red => exact flip_fill p leaf
    | black => exact flip_repairDeficit p leaf
  | node c' l n r => exact flip_fill p _

theorem flip_removeAt {p : Path} {c : Color} {l r : Shape} {n : NodeId}
    (h : l = leaf ∨ r = leaf) :
    (removeAt p (node c l n r)).flip = removeAt p.flip (node c r.flip n l.flip) := by
  rcases h with rfl | rfl
  · cases r with
    | leaf => exact flip_settle p c leaf
    | node c' x m y => exact flip_fill p _
  · cases l with
    | leaf => exact flip_settle p c leaf
    | node c' x m y => exact flip_fill p _

end Shape

end RedBlack
