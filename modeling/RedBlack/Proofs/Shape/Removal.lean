import Mathlib.Data.List.Nodup
import RedBlack.Proofs.Shape.Insertion
import RedBlack.Shape.Removal

/-!
# Removal and the repair of a deficit end in a red-black shape

`Shape.repairDeficit` goes up one frame at a time.  Its invariant is that the place
accepts a black top whose paths pass one black node more than those of the shape
that hangs there.

* `balanceSibling_spec` says what one frame comes to, done or still short.
* `isRedBlack_repairDeficit` is the induction over the frames.
* `toList_removeAt` and `isRedBlack_removeAt` are about the removal of the top of a
  shape in a place, and `exists_focus?` finds that place for a node.
-/

namespace RedBlack.Shape

/-! ## One frame of the repair -/

theorem close_eq_branch_opposite (f : Frame) (s : Shape) :
    f.close s = branch f.side.opposite f.color f.id f.other s := by
  rw [branch_opposite]
  rfl

theorem isRed_eq_false_of_ne {s : Shape} (hs : ∀ l m r, s = node .red l m r → False) :
    s.isRed = false := by
  cases s with
  | leaf => rfl
  | node c l m r =>
    cases c with
    | black => rfl
    | red => exact (hs l m r rfl).elim

/-- A black shape of positive black height has a black node at the top. -/
theorem exists_black_branch {s : Shape} {h : Nat} (d : Side) (hs : s.Balanced (h + 1))
    (hb : s.isRed = false) : ∃ n x y, s = branch d .black n x y ∧ x.Balanced h ∧ y.Balanced h := by
  cases s with
  | leaf => simp at hs
  | node c l n r =>
    have hc : c = .black := by cases c <;> simp_all [isRed]
    subst hc
    rw [← branch_slot d, balanced_branch] at hs
    obtain ⟨-, k, hk, hx, hy⟩ := hs
    obtain rfl : k = h := by simpa [Color.weight] using hk.symm
    exact ⟨n, _, _, (branch_slot d .black l n r).symm, hx, hy⟩

@[simp] theorem slot_branch (d : Side) (c : Color) (n : NodeId) (x y : Shape) :
    (branch d c n x y).slot d = x := by
  cases d <;> rfl

@[simp] theorem slot_opposite_branch (d : Side) (c : Color) (n : NodeId) (x y : Shape) :
    (branch d.opposite c n x y).slot d = y := by
  cases d <;> rfl

theorem paintBelow_branch (d : Side) (c c' : Color) (n : NodeId) (x y : Shape) :
    (branch d c n x y).paintBelow d c' = branch d c n (x.paint c') y := by
  cases d <;> rfl

/-! The four cases of a frame, with the sibling `m` taken apart at its far and its
near child. -/

section Sibling

variable {f : Frame} {c : Color} {m k : NodeId} {far near u v : Shape}

theorem slot_opposite_other (hother : f.other = branch f.side.opposite c m far near) :
    f.other.slot f.side.opposite = far := by
  rw [hother, slot_branch]

theorem slot_other (hother : f.other = branch f.side.opposite c m far near) :
    f.other.slot f.side = near := by
  rw [hother, slot_opposite_branch]

/-- A red far child: the sibling is lifted to the place and colour of the node. -/
theorem balanceSibling_of_far (hother : f.other = branch f.side.opposite .black m far near)
    (hfar : far.isRed = true) (s : Shape) :
    balanceSibling f s =
      (branch f.side.opposite f.color m (far.paint .black)
        (branch f.side.opposite .black f.id near s), false) := by
  simp only [balanceSibling, slot_opposite_other hother, if_pos hfar]
  rw [close_eq_branch_opposite, hother, lift_branch, paintBelow_branch]

/-- A red near child `k` only: it is lifted above the sibling, and then to the place
and colour of the node. -/
theorem balanceSibling_of_near
    (hother : f.other = branch f.side.opposite .black m far (branch f.side .red k u v))
    (hfar : far.isRed = false) (s : Shape) :
    balanceSibling f s =
      (branch f.side.opposite f.color k (branch f.side.opposite .black m far v)
        (branch f.side.opposite .black f.id u s), false) := by
  have hnear : (branch f.side .red k u v).isRed = true := by
    rw [isRed_branch]
    rfl
  have hblack : ¬far.isRed = true := by simp [hfar]
  simp only [balanceSibling, slot_opposite_other hother, slot_other hother, if_neg hblack,
    if_pos hnear]
  have hlift : f.other.lift f.side =
      branch f.side.opposite .black k (branch f.side.opposite .red m far v) u := by
    rw [hother, branch_opposite, lift_branch, branch_opposite, branch_opposite]
  rw [close_eq_branch_opposite, hlift, lift_branch, paintBelow_branch, paint_branch]

/-- Without red children the colour of the node decides. -/
theorem balanceSibling_of_not_red (hother : f.other = branch f.side.opposite c m far near)
    (hfar : far.isRed = false) (hnear : near.isRed = false) (s : Shape) :
    balanceSibling f s =
      if f.color = .red then
        (({ f with color := .black, other := f.other.paint .red } : Frame).close s, false)
      else (({ f with other := f.other.paint .red } : Frame).close s, true) := by
  have hfarBlack : ¬far.isRed = true := by simp [hfar]
  have hnearBlack : ¬near.isRed = true := by simp [hnear]
  simp only [balanceSibling, slot_opposite_other hother, slot_other hother, if_neg hfarBlack,
    if_neg hnearBlack]

/-- No red child below a red node: the two exchange their colours. -/
theorem balanceSibling_of_red (hother : f.other = branch f.side.opposite .black m far near)
    (hfar : far.isRed = false) (hnear : near.isRed = false) (hcolor : f.color = .red)
    (s : Shape) :
    balanceSibling f s =
      (branch f.side.opposite .black f.id (branch f.side.opposite .red m far near) s, false) := by
  rw [balanceSibling_of_not_red hother hfar hnear, if_pos hcolor, close_eq_branch_opposite, hother,
    paint_branch]

/-- No red child below a black node: the sibling turns red, and the node is short. -/
theorem balanceSibling_of_black (hother : f.other = branch f.side.opposite .black m far near)
    (hfar : far.isRed = false) (hnear : near.isRed = false) (hcolor : f.color = .black)
    (s : Shape) :
    balanceSibling f s =
      (branch f.side.opposite .black f.id (branch f.side.opposite .red m far near) s, true) := by
  have hne : ¬f.color = .red := by simp [hcolor]
  rw [balanceSibling_of_not_red hother hfar hnear, if_neg hne, close_eq_branch_opposite, hother,
    paint_branch, hcolor]

end Sibling

/-- What one frame comes to.  Either the paths of its node have the black node back
and it is red only if it was, or the node is black and is now the top of a balanced
shape that is short. -/
theorem balanceSibling_spec {f : Frame} {s : Shape} {h : Nat} (hother : f.other.Balanced (h + 1))
    (hblack : f.other.isRed = false) (hs : s.Balanced h) :
    (balanceSibling f s).2 = false ∧
        (balanceSibling f s).1.Balanced (h + 1 + f.color.weight) ∧
        ((balanceSibling f s).1.isRed = true → f.color = .red) ∨
      (balanceSibling f s).2 = true ∧ f.color = .black ∧
        (balanceSibling f s).1.Balanced (h + 1) ∧ (balanceSibling f s).1.isRed = false := by
  obtain ⟨m, far, near, hm, hfar, hnear⟩ := exists_black_branch f.side.opposite hother hblack
  by_cases hfr : far.isRed = true
  · rw [balanceSibling_of_far hm hfr]
    refine .inl ⟨rfl, ?_, by simp⟩
    refine balanced_branch.mpr ⟨by simp, h + 1, rfl, hfar.paint_black hfr, ?_⟩
    exact balanced_branch.mpr ⟨by simp, h, rfl, hnear, hs⟩
  · have hfb : far.isRed = false := by simpa using hfr
    by_cases hnr : near.isRed = true
    · obtain ⟨k, u, v, rfl⟩ := exists_branch_of_isRed f.side hnr
      obtain ⟨-, j, hj, hu, hv⟩ := balanced_branch.mp hnear
      obtain rfl : h = j := hj
      rw [balanceSibling_of_near hm hfb]
      refine .inl ⟨rfl, ?_, by simp⟩
      refine balanced_branch.mpr ⟨by simp, h + 1, rfl, ?_, ?_⟩
      · exact balanced_branch.mpr ⟨by simp, h, rfl, hfar, hv⟩
      · exact balanced_branch.mpr ⟨by simp, h, rfl, hu, hs⟩
    · have hnb : near.isRed = false := by simpa using hnr
      -- The sibling turns red, and both sides of the node are short alike.
      have hred : (branch f.side.opposite .red m far near).Balanced h :=
        balanced_branch.mpr ⟨fun _ => ⟨hfb, hnb⟩, h, rfl, hfar, hnear⟩
      have hjoin : (branch f.side.opposite .black f.id
          (branch f.side.opposite .red m far near) s).Balanced (h + 1) :=
        balanced_branch.mpr ⟨by simp, h, rfl, hred, hs⟩
      cases hc : f.color with
      | red =>
        rw [balanceSibling_of_red hm hfb hnb hc]
        exact .inl ⟨rfl, hjoin, by simp⟩
      | black =>
        rw [balanceSibling_of_black hm hfb hnb hc]
        exact .inr ⟨rfl, rfl, hjoin, by simp⟩

/-! ## All frames -/

/-- A red sibling is lifted above the node before its frame is repaired. -/
theorem repairDeficit_cons_of_red {f : Frame} {up : Path} {x far near : Shape} {m : NodeId}
    (hother : f.other = branch f.side.opposite .red m far near) :
    repairDeficit (f :: up) x = Path.fill (⟨f.side, f.color, m, far⟩ :: up)
      (balanceSibling { f with color := .red, other := near } x).1 := by
  have hfar := slot_opposite_other hother
  have hnear := slot_other hother
  obtain ⟨l, r, hlr⟩ : ∃ l r, f.other = node .red l m r := by
    rw [hother]
    cases f.side.opposite <;> exact ⟨_, _, rfl⟩
  rw [hlr] at hfar hnear
  simp only [repairDeficit, hlr, hfar, hnear]

theorem repairDeficit_cons_of_black {f : Frame} {up : Path} {x : Shape}
    (hother : f.other.isRed = false) :
    repairDeficit (f :: up) x =
      if (balanceSibling f x).2 then repairDeficit up (balanceSibling f x).1
      else up.fill (balanceSibling f x).1 := by
  rw [repairDeficit]
  cases ho : f.other with
  | leaf => rcases balanceSibling f x with ⟨s, _ | _⟩ <;> rfl
  | node c l m r =>
    cases c with
    | red => simp [ho, isRed] at hother
    | black => rcases balanceSibling f x with ⟨s, _ | _⟩ <;> rfl

/-- The repair of a deficit: where its place accepts a black top with one black node
more, a red-black shape comes out. -/
theorem isRedBlack_repairDeficit {p : Path} {s : Shape} {h : Nat} (hp : p.Accepts false (h + 1))
    (hs : s.Balanced h) (hsb : s.isRed = false) : (repairDeficit p s).IsRedBlack := by
  fun_induction repairDeficit p s generalizing h with
  | case1 s => exact isRedBlack_iff.mpr ⟨hsb, h, hs⟩
  | case2 f up s l m r hother near far repaired short =>
    rename_i hrep
    obtain ⟨hf, hbal, hup⟩ := hp
    rw [hother] at hf hbal
    have hcb : f.color = .black := by
      cases hc : f.color with
      | black => rfl
      | red => simpa [isRed] using (hf hc).2
    rw [← branch_slot f.side] at hbal
    obtain ⟨hred, k, hk, hnear, hfar⟩ := balanced_branch.mp hbal
    obtain rfl : h + 1 = k := hk
    -- Below the lifted sibling the node is red, so one more round ends the repair.
    have hspec := balanceSibling_spec (f := { f with color := .red, other := near })
      hnear (hred rfl).1 hs
    rw [hrep] at hspec
    obtain ⟨-, hrepaired, -⟩ | ⟨-, hc, -⟩ := hspec
    · refine isRedBlack_fill_iff.mpr ⟨h + 1, ⟨fun hc => ?_, hfar, hup⟩, hrepaired⟩
      rw [hcb] at hc
      cases hc
    · cases hc
  | case3 f up s repaired hrep hother =>
    obtain ⟨-, hbal, hup⟩ := hp
    have hspec := balanceSibling_spec hbal (isRed_eq_false_of_ne hother) hs
    rw [hrep] at hspec
    obtain ⟨-, hrepaired, htop⟩ | ⟨hshort, -⟩ := hspec
    · refine isRedBlack_fill_iff.mpr ⟨_, hup.mono ?_, hrepaired⟩
      simpa using htop
    · cases hshort
  | case4 f up s repaired hrep hother ih =>
    obtain ⟨-, hbal, hup⟩ := hp
    have hspec := balanceSibling_spec hbal (isRed_eq_false_of_ne hother) hs
    rw [hrep] at hspec
    obtain ⟨hshort, -⟩ | ⟨-, hcb, hrepaired, htop⟩ := hspec
    · cases hshort
    · rw [hcb] at hup
      exact ih hup.of_false hrepaired htop

/-- One frame moves no node in the order. -/
theorem toList_balanceSibling (f : Frame) (s : Shape) :
    (balanceSibling f s).1.toList = (f.close s).toList := by
  have hclose : ∀ g : Frame, g.side = f.side → g.id = f.id →
      g.other.toList = f.other.toList → (g.close s).toList = (f.close s).toList := by
    intro g hside hid hother
    cases hd : f.side <;> simp [Frame.close, branch, toList, hside, hid, hother, hd]
  simp only [balanceSibling]
  split
  · simp
  · split
    · rw [toList_paintBelow, toList_lift]
      exact hclose _ rfl rfl (toList_lift _ _)
    · split
      · exact hclose _ rfl rfl (toList_paint _ _)
      · exact hclose _ rfl rfl (toList_paint _ _)

/-- The repair moves no node in the order. -/
theorem toList_repairDeficit (p : Path) (s : Shape) :
    (repairDeficit p s).toList = p.before ++ s.toList ++ p.after := by
  rw [← Path.toList_fill]
  fun_induction repairDeficit p s with
  | case1 s => rfl
  | case2 f up s l m r hother near far repaired short =>
    rename_i hrep
    have hsame := toList_balanceSibling { f with color := .red, other := near } s
    rw [hrep] at hsame
    -- The sibling is lifted over the node before the frame is repaired.
    have hlift : (f.close s).toList = (Frame.close ⟨f.side, f.color, m, far⟩
        (Frame.close ⟨f.side, .red, f.id, near⟩ s)).toList := by
      rw [Frame.close, hother]
      cases hd : f.side <;> simp [near, far, slot, Side.opposite, Frame.close, branch, toList, hd]
    rw [Path.fill, Path.fill, Path.toList_fill, Path.toList_fill, hlift, Frame.toList_close,
      Frame.toList_close, hsame]
  | case3 f up s repaired hrep =>
    have hsame := toList_balanceSibling f s
    rw [hrep] at hsame
    rw [Path.fill, Path.toList_fill, Path.toList_fill, hsame]
  | case4 f up s repaired hrep hother ih =>
    have hsame := toList_balanceSibling f s
    rw [hrep] at hsame
    rw [ih, Path.fill, Path.toList_fill, Path.toList_fill, hsame]

/-! ## The leftmost node -/

/-- The leftmost node has only left slots over it, and what was found can be put
together again. -/
theorem leftmost_eq_some {up q : Path} {s rest : Shape} {c : Color} {m : NodeId}
    (h : leftmost up s = some (q, c, m, rest)) :
    ∃ down : Path, q = down ++ up ∧ (∀ f ∈ down, f.side = .left) ∧
      down.fill (node c leaf m rest) = s := by
  fun_induction leftmost up s with
  | case1 => cases h
  | case2 up c' n r =>
    obtain ⟨rfl, rfl, rfl, rfl⟩ := by simpa using h
    exact ⟨[], rfl, by simp, rfl⟩
  | case3 up c' l n r hl ih =>
    obtain ⟨down, rfl, hside, hfill⟩ := ih h
    refine ⟨down ++ [⟨.left, c', n, r⟩], by simp, ?_, ?_⟩
    · intro f hf
      rcases List.mem_append.mp hf with hf | hf
      · exact hside f hf
      · rw [List.mem_singleton.mp hf]
    · rw [Path.fill_append, hfill]
      rfl

theorem exists_leftmost {s : Shape} (hs : s ≠ leaf) (up : Path) :
    ∃ q c m rest, leftmost up s = some (q, c, m, rest) := by
  fun_induction leftmost up s with
  | case1 => exact absurd rfl hs
  | case2 up c n r => exact ⟨_, _, _, _, rfl⟩
  | case3 up c l n r hl ih => exact ih hl

/-- Nothing comes before a place with only left slots over it. -/
theorem before_of_left {p : Path} (hp : ∀ f ∈ p, f.side = .left) : p.before = [] := by
  induction p with
  | nil => rfl
  | cons f up ih =>
    rw [List.forall_mem_cons] at hp
    rw [Path.before, hp.1]
    exact ih hp.2

/-! ## The order around a node -/

theorem toList_fill_node (p : Path) (c : Color) (l : Shape) (n : NodeId) (r : Shape) :
    (p.fill (node c l n r)).toList = (p.before ++ l.toList) ++ n :: (r.toList ++ p.after) := by
  rw [Path.toList_fill, toList]
  simp

theorem notMem_before_of_nodup {p : Path} {c : Color} {l r : Shape} {n : NodeId}
    (h : (p.fill (node c l n r)).toList.Nodup) : n ∉ p.before ++ l.toList := by
  rw [toList_fill_node, List.nodup_middle, List.nodup_cons, List.mem_append, not_or] at h
  exact h.1.1

/-! ## The removal of a node -/

end RedBlack.Shape

namespace RedBlack

/-- What taking a node out of a shape leaves: a place, what hangs there now, and
whether the paths through the place lack a black node. -/
structure Opening where
  place : Path
  rest : Shape
  short : Bool

namespace Opening

/-- The shape before any repair. -/
def shape (o : Opening) : Shape := o.place.fill o.rest

/-- The shape after the repair. -/
def repaired (o : Opening) : Shape :=
  if o.short then Shape.repairDeficit o.place o.rest else o.shape

theorem toList_repaired (o : Opening) : o.repaired.toList = o.shape.toList := by
  unfold repaired
  split
  · rw [Shape.toList_repairDeficit, shape, Path.toList_fill]
  · rfl

/-- What is repaired is red-black: it is so already, or it is short by one. -/
def Repairable (o : Opening) : Prop :=
  if o.short then o.place.Accepts false 1 ∧ o.rest = .leaf else o.shape.IsRedBlack

theorem Repairable.isRedBlack {o : Opening} (h : o.Repairable) : o.repaired.IsRedBlack := by
  unfold Repairable at h
  unfold repaired
  split
  · next hshort =>
    rw [if_pos hshort] at h
    rw [h.2]
    exact Shape.isRedBlack_repairDeficit h.1 (Shape.balanced_leaf.mpr rfl) rfl
  · next hshort =>
    rw [if_neg hshort] at h
    exact h

end Opening

namespace Shape

/-- Takes the top of a shape out of the place that the shape hangs in. -/
def spliceAt (p : Path) : Shape → Opening
  | leaf => ⟨p, leaf, false⟩
  | node c leaf _ leaf => ⟨p, leaf, c = .black⟩
  | node c leaf _ (node _ x m y) => ⟨p, node c x m y, false⟩
  | node c (node _ x m y) _ leaf => ⟨p, node c x m y, false⟩
  | node c (node cl x k y) _ (node cr z j w) =>
    match leftmost [] (node cr z j w) with
    | none => ⟨p, leaf, false⟩
    | some (down, c', m, rest) =>
      ⟨down ++ ⟨.right, c, m, node cl x k y⟩ :: p, rest.paint .black, rest = leaf ∧ c' = .black⟩

/-- With two children, the leftmost node on the right side takes the place. -/
theorem spliceAt_of_leftmost {p down : Path} {c c' : Color} {l r rest : Shape} {m : NodeId}
    (n : NodeId) (hl : l ≠ leaf) (hr : leftmost [] r = some (down, c', m, rest)) :
    spliceAt p (node c l n r) =
      ⟨down ++ ⟨.right, c, m, l⟩ :: p, rest.paint .black, rest = leaf ∧ c' = .black⟩ := by
  cases l with
  | leaf => exact absurd rfl hl
  | node cl x k y =>
    cases r with
    | leaf => cases hr
    | node cr z j w => simp only [spliceAt, hr]

/-- A removal takes the node out and repairs what this leaves. -/
theorem removeAt_eq (p : Path) (s : Shape) : removeAt p s = (spliceAt p s).repaired := by
  cases s with
  | leaf => rfl
  | node c l n r =>
    cases l with
    | leaf =>
      cases r with
      | leaf => cases c <;> rfl
      | node => rfl
    | node cl x k y =>
      cases r with
      | leaf => rfl
      | node cr z j w =>
        obtain ⟨down, c', m, rest, hr⟩ := exists_leftmost (s := node cr z j w) (by simp) []
        rw [spliceAt_of_leftmost n (by simp) hr]
        simp only [removeAt, hr]
        cases rest <;> cases c' <;> simp [settle, Opening.repaired, Opening.shape, paint]

/-- Taking a node out keeps all others in their order. -/
theorem toList_spliceAt (p : Path) (c : Color) (l : Shape) (n : NodeId) (r : Shape) :
    (spliceAt p (node c l n r)).shape.toList =
      p.before ++ (l.toList ++ r.toList) ++ p.after := by
  cases l with
  | leaf => cases r <;> simp [spliceAt, Opening.shape, Path.toList_fill, toList]
  | node cl x k y =>
    cases r with
    | leaf => simp [spliceAt, Opening.shape, Path.toList_fill, toList]
    | node cr z j w =>
      obtain ⟨down, c', m, rest, hr⟩ := exists_leftmost (s := node cr z j w) (by simp) []
      obtain ⟨down, rfl, hside, hfill⟩ := leftmost_eq_some hr
      rw [List.append_nil] at hr
      have hlist : (node cr z j w).toList = m :: (rest.toList ++ down.after) := by
        rw [← hfill, Path.toList_fill, before_of_left hside]
        simp [toList]
      rw [spliceAt_of_leftmost n (by simp) hr, Opening.shape, Path.fill_append, Path.fill,
        Path.toList_fill, hlist, Frame.close, branch, toList, Path.toList_fill,
        before_of_left hside, toList_paint]
      simp

/-- What is left of a node with one empty slot fits into its place, if it is short
when a black node went and no red one came. -/
theorem repairable_of_zero {q : Path} {c : Color} {rest : Shape}
    (hq : q.Accepts (c = .red) c.weight) (hrest : rest.Balanced 0)
    (hc : c = .red → rest.isRed = false) :
    Opening.Repairable ⟨q, rest.paint .black, rest = leaf ∧ c = .black⟩ := by
  obtain rfl | ⟨n, rfl⟩ := hrest.eq_of_zero
  · cases c with
    | red =>
      rw [Opening.Repairable, if_neg (by simp)]
      exact isRedBlack_fill_iff.mpr ⟨0, hq.of_false, balanced_leaf.mpr rfl⟩
    | black =>
      rw [Opening.Repairable, if_pos (by simp)]
      exact ⟨hq.of_false, rfl⟩
  · cases c with
    | red => simp [isRed] at hc
    | black =>
      rw [Opening.Repairable, if_neg (by simp)]
      exact isRedBlack_fill_iff.mpr ⟨1, hq.of_false, hrest.paint_black rfl⟩

/-- An only child is red, and its node is black. -/
theorem repairable_onlyChild {p : Path} {c c' : Color} {x y : Shape} {m : NodeId}
    (hp : p.Accepts (c = .red) c.weight) (hchild : (node c' x m y).Balanced 0)
    (hc : c = .red → (node c' x m y).isRed = false) :
    Opening.Repairable ⟨p, node c x m y, false⟩ := by
  obtain h | ⟨n, h⟩ := hchild.eq_of_zero
  · cases h
  · cases h
    cases c with
    | red => simp [isRed] at hc
    | black => simpa [paint] using repairable_of_zero hp hchild hc

/-- What taking a node out of a red-black shape leaves can be repaired. -/
theorem repairable_spliceAt {p : Path} {c : Color} {l r : Shape} {n : NodeId}
    (h : (p.fill (node c l n r)).IsRedBlack) : (spliceAt p (node c l n r)).Repairable := by
  obtain ⟨k, hacc, hbal⟩ := isRedBlack_fill_iff.mp h
  obtain ⟨hred, j, rfl, hl, hr⟩ := balanced_node.mp hbal
  cases l with
  | leaf =>
    obtain rfl : j = 0 := balanced_leaf.mp hl
    rw [Nat.zero_add] at hacc
    cases r with
    | leaf => simpa [spliceAt, paint] using repairable_of_zero hacc hr (fun _ => rfl)
    | node c' x m y => exact repairable_onlyChild hacc hr fun hc => (hred hc).2
  | node cl x i y =>
    cases r with
    | leaf =>
      obtain rfl : j = 0 := balanced_leaf.mp hr
      rw [Nat.zero_add] at hacc
      exact repairable_onlyChild hacc hl fun hc => (hred hc).1
    | node cr z i' w =>
      obtain ⟨down, c', m, rest, hleft⟩ := exists_leftmost (s := node cr z i' w) (by simp) []
      obtain ⟨down, rfl, -, hfill⟩ := leftmost_eq_some hleft
      rw [List.append_nil] at hleft
      rw [spliceAt_of_leftmost n (by simp) hleft]
      -- The place of the leftmost node, with `n` still in its frame.
      have hplace : (Path.fill (down ++ ⟨.right, c, n, node cl x i y⟩ :: p)
          (node c' leaf m rest)).IsRedBlack := by
        rw [Path.fill_append, hfill]
        exact h
      obtain ⟨k, hacc', hbal'⟩ := isRedBlack_fill_iff.mp hplace
      obtain ⟨hred', j', rfl, hleaf, hrest⟩ := balanced_node.mp hbal'
      obtain rfl : j' = 0 := balanced_leaf.mp hleaf
      rw [Nat.zero_add, isRed] at hacc'
      exact repairable_of_zero (Path.Accepts.congr_frame hacc' rfl rfl) hrest
        fun hc => (hred' hc).2

/-- A removal takes its node out of the order, and nothing else. -/
theorem toList_removeAt {p : Path} {c : Color} {l r : Shape} {n : NodeId}
    (h : (p.fill (node c l n r)).toList.Nodup) :
    (removeAt p (node c l n r)).toList = (p.fill (node c l n r)).toList.erase n := by
  rw [removeAt_eq, Opening.toList_repaired, toList_spliceAt, toList_fill_node,
    List.erase_append_right _ (notMem_before_of_nodup h), List.erase_cons_head]
  simp

/-- A removal from a red-black shape leaves one. -/
theorem isRedBlack_removeAt {p : Path} {c : Color} {l r : Shape} {n : NodeId}
    (h : (p.fill (node c l n r)).IsRedBlack) : (removeAt p (node c l n r)).IsRedBlack := by
  rw [removeAt_eq]
  exact (repairable_spliceAt h).isRedBlack

/-! ## The removal of a node by name -/

/-- A node that the shape does not have is not found. -/
theorem focus?_go_of_notMem {n : NodeId} {s : Shape} (hn : n ∉ s.toList) (up : Path) :
    focus?.go n up s = none := by
  induction s generalizing up with
  | leaf => rfl
  | node c l m r ihl ihr =>
    simp only [toList, List.mem_append, List.mem_cons, not_or] at hn
    obtain ⟨hl, hm, hr⟩ := hn
    rw [focus?.go, if_neg (Ne.symm hm), ihl hl, ihr hr]
    rfl

theorem exists_focus?_go {n : NodeId} {s : Shape} (hn : n ∈ s.toList) (up : Path) :
    ∃ p c l r, focus?.go n up s = some (p, node c l n r) := by
  induction s generalizing up with
  | leaf => cases hn
  | node c l m r ihl ihr =>
    rw [focus?.go]
    by_cases hm : m = n
    · rw [if_pos hm, hm]
      exact ⟨_, _, _, _, rfl⟩
    · rw [if_neg hm]
      by_cases hl : n ∈ l.toList
      · obtain ⟨p, c', l', r', h⟩ := ihl hl (⟨.left, c, m, r⟩ :: up)
        exact ⟨p, c', l', r', by rw [h]; rfl⟩
      · have hr : n ∈ r.toList := by
          simp only [toList, List.mem_append, List.mem_cons] at hn
          exact (hn.resolve_left hl).resolve_left (Ne.symm hm)
        rw [focus?_go_of_notMem hl]
        exact ihr hr _

/-- A node of a shape is found, and what was found is its place. -/
theorem exists_focus? {n : NodeId} {s : Shape} (hn : n ∈ s.toList) :
    ∃ p c l r, s.focus? n = some (p, node c l n r) ∧ s = p.fill (node c l n r) := by
  obtain ⟨p, c, l, r, h⟩ := exists_focus?_go hn []
  exact ⟨p, c, l, r, h, (fill_of_focus? h).symm⟩

end Shape

end RedBlack
