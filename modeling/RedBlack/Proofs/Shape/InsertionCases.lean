import RedBlack.Proofs.Shape.Insertion

/-!
# The repair of a red node, case by case

`Shape.repairRed` is a function on places.  `RedRepair` says the same repair by its cases:
each rule tells by the colours around a red node which case it is, and writes down what
the rotations of this case leave.

* `RedRepair.unique`: the cases exclude each other.
* `redRepair_repairRed`: below a place that follows the rules there is always a case, and
  the last of them ends in the shape of `repairRed`.
* `redRepair_iff` puts the two together.
-/

namespace RedBlack

open Shape

/-- The repair of the red top of `s`, which hangs in a place, ends in the shape `t`.  The
node over the place is the parent `p`, the one over that the grandparent `g`, and what
hangs in the other slot of `g` is the uncle. -/
inductive RedRepair : Path → Shape → Shape → Prop
  /-- Without a parent the node turns black. -/
  | top {s : Shape} : RedRepair [] s (s.paint .black)
  /-- Below a black parent nothing is wrong. -/
  | blackParent {p : Frame} {up : Path} {s : Shape} (hp : p.color = .black) :
      RedRepair (p :: up) s (Path.fill (p :: up) s)
  /-- Parent and uncle turn black, and the grandparent turns red and is the next node. -/
  | redUncle {p g : Frame} {up : Path} {s t : Shape} (hp : p.color = .red)
      (hg : g.other.isRed = true)
      (next : RedRepair up
        (branch g.side .red g.id (branch p.side .black p.id s p.other) (g.other.paint .black)) t) :
      RedRepair (p :: g :: up) s t
  /-- The inner grandchild `n` is rotated above its parent, which is the next node and the
  outer grandchild. -/
  | inner {p g : Frame} {up : Path} {s t x y : Shape} {n : NodeId} (hp : p.color = .red)
      (hg : g.other.isRed = false) (hside : p.side = g.side.opposite)
      (hs : s = branch g.side .red n x y)
      (next : RedRepair (⟨g.side, .red, n, y⟩ :: g :: up) (branch g.side .red p.id p.other x) t) :
      RedRepair (p :: g :: up) s t
  /-- Over the outer grandchild the parent is rotated above the grandparent: it turns black,
  and the grandparent red. -/
  | outer {p g : Frame} {up : Path} {s : Shape} (hp : p.color = .red)
      (hg : g.other.isRed = false) (hside : p.side = g.side) :
      RedRepair (p :: g :: up) s
        (up.fill (branch g.side .black p.id s (branch g.side .red g.id p.other g.other)))

/-- No two cases fit, so the repair has one end. -/
theorem RedRepair.unique {p : Path} {s t t' : Shape} (h : RedRepair p s t)
    (h' : RedRepair p s t') : t = t' := by
  induction h generalizing t' with
  | top =>
    cases h' with
    | top => rfl
  | blackParent hp =>
    cases h' with
    | blackParent => rfl
    | redUncle hp' => simp [hp] at hp'
    | inner hp' => simp [hp] at hp'
    | outer hp' => simp [hp] at hp'
  | redUncle hp hg next ih =>
    cases h' with
    | blackParent hp' => simp [hp] at hp'
    | redUncle hp' hg' next' => exact ih next'
    | inner hp' hg' => simp [hg] at hg'
    | outer hp' hg' => simp [hg] at hg'
  | inner hp hg hside hs next ih =>
    cases h' with
    | blackParent hp' => simp [hp] at hp'
    | redUncle hp' hg' => simp [hg] at hg'
    | inner hp' hg' hside' hs' next' =>
      obtain ⟨-, rfl, rfl, rfl⟩ := branch_inj (hs.symm.trans hs')
      exact ih next'
    | outer hp' hg' hside' => exact absurd (hside.symm.trans hside') (Side.opposite_ne _)
  | outer hp hg hside =>
    cases h' with
    | blackParent hp' => simp [hp] at hp'
    | redUncle hp' hg' => simp [hg] at hg'
    | inner hp' hg' hside' => exact absurd (hside'.symm.trans hside) (Side.opposite_ne _)
    | outer => rfl

namespace Shape

/-- The repair goes by the cases, from any place that accepts a black top. -/
theorem redRepair_repairRed {p : Path} {s : Shape} {h : Nat} (hp : p.Accepts false h)
    (hred : s.isRed = true) : RedRepair p s (repairRed p s) := by
  fun_induction repairRed p s generalizing h with
  | case1 s => exact .top
  | case2 p s =>
    have hblack : p.color = .black := by
      cases hc : p.color with
      | black => rfl
      | red => simpa [Path.Accepts, hc] using hp.2.2
    exact .blackParent hblack
  | case3 p g up s hblack => exact .blackParent hblack
  | case4 p g up s hcolor hgr ih =>
    have hpr : p.color = .red := Color.eq_red_of_ne hcolor
    obtain ⟨-, -, -, -, hup⟩ := accepts_of_red hp hpr
    have hparent : (p.close s).paint .black = branch p.side .black p.id s p.other :=
      paint_branch ..
    rw [hparent] at ih ⊢
    exact .redUncle hpr hgr (ih hup (by simp))
  | case5 p g up s hcolor hgb =>
    have hpr : p.color = .red := Color.eq_red_of_ne hcolor
    obtain ⟨-, -, hg, -, -⟩ := accepts_of_red hp hpr
    have hgb : g.other.isRed = false := by simpa using hgb
    by_cases hside : p.side = g.side
    · rw [lift_straighten_outer s hpr hg hside]
      exact .outer hpr hgb hside
    · obtain ⟨n, x, y, rfl⟩ := exists_branch_of_isRed g.side hred
      have hside : p.side = g.side.opposite := Side.eq_opposite_of_ne hside
      rw [lift_straighten_inner n x y hpr hg hside]
      -- After the first rotation the parent is the outer grandchild.
      refine .inner hpr hgb hside rfl ?_
      exact .outer rfl hgb rfl

/-- What comes out of the cases is what `repairRed` computes. -/
theorem redRepair_iff {p : Path} {s t : Shape} {h : Nat} (hp : p.Accepts false h)
    (hred : s.isRed = true) : RedRepair p s t ↔ t = repairRed p s := by
  constructor
  · intro hrep
    exact hrep.unique (redRepair_repairRed hp hred)
  · rintro rfl
    exact redRepair_repairRed hp hred

end Shape

end RedBlack
