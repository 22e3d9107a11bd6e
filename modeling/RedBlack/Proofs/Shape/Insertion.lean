import RedBlack.Proofs.Shape.Balance
import RedBlack.Shape.Insertion

/-!
# The repair of a red node ends in a red-black shape

`Shape.repairRed` goes up two frames at a time.  Its invariant is that the place
accepts a black top where a red one stands: nothing else can be wrong.  The black
height below the red node is then that of the whole, and
`isRedBlack_repairRed` is the induction.
-/

namespace RedBlack.Shape

/-! ## Rotations by side -/

/-- A rotation, said once for both sides: the node in slot `d` comes to the top and
takes the old top into its other slot. -/
theorem lift_branch (d : Side) (c c' : Color) (n m : NodeId) (x y z : Shape) :
    (branch d c n (branch d c' m x y) z).lift d = branch d c m x (branch d c' n y z) := by
  cases d <;> rfl

theorem branch_opposite (d : Side) (c : Color) (n : NodeId) (x y : Shape) :
    branch d.opposite c n x y = branch d c n y x := by
  cases d <;> rfl

/-- A shape with a red top, taken apart at the slots of side `d`. -/
theorem exists_branch_of_isRed {s : Shape} (d : Side) (hs : s.isRed = true) :
    ∃ n x y, s = branch d .red n x y := by
  cases s with
  | leaf => simp [isRed] at hs
  | node c l n r =>
    have hc : c = .red := by simpa [isRed] using hs
    subst hc
    exact ⟨n, _, _, (branch_slot d .red l n r).symm⟩

/-- The lower half of a double rotation leaves the red node of the outer side on
top of the other one. -/
theorem straighten_inner {d : Side} {p : Frame} (hside : p.side = d.opposite)
    (c : Color) (n : NodeId) (x y : Shape) :
    straighten d p (branch d c n x y) =
      branch d p.color n (branch d c p.id p.other x) y := by
  rw [straighten, if_neg (by rw [hside]; exact d.opposite_ne), Frame.close, hside]
  have hn : branch d c n x y = branch d.opposite c n y x := by
    rw [branch_opposite]
  rw [hn, lift_branch, branch_opposite, branch_opposite]

/-- The last rotation, over the red node of the outer side.  The two nodes that turn have
different colours, so their exchange gives each of them its own. -/
theorem lift_straighten_outer {p g : Frame} (s : Shape) (hp : p.color = .red)
    (hg : g.color = .black) (hside : p.side = g.side) :
    (g.close (straighten g.side p s)).lift g.side =
      branch g.side .black p.id s (branch g.side .red g.id p.other g.other) := by
  rw [straighten, if_pos hside, Frame.close, Frame.close, hside, hp, hg, lift_branch]

/-- Both rotations, over the red node `n` of the inner side. -/
theorem lift_straighten_inner {p g : Frame} (n : NodeId) (x y : Shape) (hp : p.color = .red)
    (hg : g.color = .black) (hside : p.side = g.side.opposite) :
    (g.close (straighten g.side p (branch g.side .red n x y))).lift g.side =
      branch g.side .black n (branch g.side .red p.id p.other x)
        (branch g.side .red g.id y g.other) := by
  rw [straighten_inner hside, Frame.close, hp, hg, lift_branch]

/-! ## The repair -/

/-- Two reds in a row below a black node that has no red child on the other side
become a black node over two red ones. -/
theorem balanced_lift_straighten {p g : Frame} {s : Shape} {h : Nat} (hs : s.Balanced h)
    (hred : s.isRed = true) (hp : p.color = .red) (hg : g.color = .black)
    (hpo : p.other.Balanced h) (hpb : p.other.isRed = false) (hgo : g.other.Balanced h)
    (hgb : g.other.isRed = false) :
    ((g.close (straighten g.side p s)).lift g.side).Balanced (h + 1) ∧
      ((g.close (straighten g.side p s)).lift g.side).isRed = false := by
  by_cases hside : p.side = g.side
  · rw [lift_straighten_outer s hp hg hside]
    refine ⟨?_, isRed_branch⟩
    refine balanced_branch.mpr ⟨by simp, h, rfl, hs, ?_⟩
    exact balanced_branch.mpr ⟨fun _ => ⟨hpb, hgb⟩, h, rfl, hpo, hgo⟩
  · obtain ⟨n, x, y, rfl⟩ := exists_branch_of_isRed g.side hred
    obtain ⟨hxy, k, hk, hx, hy⟩ := balanced_branch.mp hs
    obtain ⟨hxb, hyb⟩ := hxy rfl
    obtain rfl : k = h := hk.symm
    rw [lift_straighten_inner n x y hp hg (Side.eq_opposite_of_ne hside)]
    refine ⟨?_, isRed_branch⟩
    refine balanced_branch.mpr ⟨by simp, k, rfl, ?_, ?_⟩
    · exact balanced_branch.mpr ⟨fun _ => ⟨hpb, hxb⟩, k, rfl, hpo, hx⟩
    · exact balanced_branch.mpr ⟨fun _ => ⟨hyb, hgb⟩, k, rfl, hy, hgo⟩

/-- Around a place below a red node, the next node up is black. -/
theorem accepts_of_red {p g : Frame} {up : Path} {red : Bool} {h : Nat}
    (hp : Path.Accepts (p :: g :: up) red h) (hred : p.color = .red) :
    p.other.isRed = false ∧ p.other.Balanced h ∧ g.color = .black ∧ g.other.Balanced h ∧
      up.Accepts false (h + 1) := by
  obtain ⟨hpo, hother, hgp, hgo, hup⟩ := hp
  have hg : g.color = .black := by
    cases hc : g.color with
    | black => rfl
    | red => simpa [hred] using (hgp hc).1
  rw [hred, Color.weight, Nat.add_zero] at hgo hup
  rw [hg, Color.weight] at hup
  exact ⟨(hpo hred).2, hother, hg, hgo, hup.of_false⟩

/-- The repair of a red node: where its place accepts a black top of the same black
height, a red-black shape comes out. -/
theorem isRedBlack_repairRed {p : Path} {s : Shape} {h : Nat} (hp : p.Accepts false h)
    (hs : s.Balanced h) (hred : s.isRed = true) : (repairRed p s).IsRedBlack := by
  fun_induction repairRed p s generalizing h with
  | case1 s =>
    exact isRedBlack_iff.mpr ⟨isRed_paint_black s, h + 1, hs.paint_black hred⟩
  | case2 p s =>
    obtain ⟨-, hother, htop⟩ := hp
    have hblack : p.color ≠ .red := by simpa [Path.Accepts] using htop
    exact isRedBlack_fill_iff (p := [p]).mpr
      ⟨h, ⟨fun hc => absurd hc hblack, hother, htop⟩, hs⟩
  | case3 p g up s hblack =>
    have hne : p.color ≠ .red := by simp [hblack]
    exact isRedBlack_fill_iff.mpr ⟨h, ⟨fun hc => absurd hc hne, hp.2⟩, hs⟩
  | case4 p g up s hcolor hgr ih =>
    have hpr : p.color = .red := Color.eq_red_of_ne hcolor
    obtain ⟨-, hpo, -, hgo, hup⟩ := accepts_of_red hp hpr
    -- Both children of the new red node carry a black node more.
    have hclose : ((p.close s).paint .black).Balanced (h + 1) := by
      rw [Frame.close, paint_branch]
      exact balanced_branch.mpr ⟨by simp, h, rfl, hs, hpo⟩
    have hother : (g.other.paint .black).Balanced (h + 1) := hgo.paint_black hgr
    refine ih hup ?_ (by simp)
    exact balanced_close.mpr ⟨fun _ => ⟨by simp, by simp⟩, h + 1, rfl, hclose, hother⟩
  | case5 p g up s hcolor hgb =>
    have hpr : p.color = .red := Color.eq_red_of_ne hcolor
    obtain ⟨hpb, hpo, hg, hgo, hup⟩ := accepts_of_red hp hpr
    have hgb : g.other.isRed = false := by simpa using hgb
    obtain ⟨hbal, htop⟩ := balanced_lift_straighten hs hred hpr hg hpo hpb hgo hgb
    exact isRedBlack_fill_iff.mpr ⟨h + 1, htop ▸ hup, hbal⟩

/-- An insertion into an empty place of a red-black shape gives one. -/
theorem isRedBlack_insertAt {p : Path} (hp : (p.fill leaf).IsRedBlack) (n : NodeId) :
    (insertAt p n).IsRedBlack := by
  obtain ⟨h, hacc, hleaf⟩ := isRedBlack_fill_iff.mp hp
  obtain rfl : h = 0 := balanced_leaf.mp hleaf
  have hnew : (node .red leaf n leaf).Balanced 0 :=
    balanced_node.mpr ⟨fun _ => ⟨rfl, rfl⟩, 0, rfl, balanced_leaf.mpr rfl, balanced_leaf.mpr rfl⟩
  exact isRedBlack_repairRed hacc hnew rfl

end RedBlack.Shape
