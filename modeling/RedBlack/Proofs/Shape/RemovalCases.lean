import RedBlack.Proofs.Shape.Nodes
import RedBlack.Proofs.Shape.Removal

/-!
# Removal and the repair of a deficit, case by case

`Shape.remove` is a function on shapes.  Here the same removal is said by its cases, each
of them a rule that writes down what comes out of it.

* `Spliced n s o`: taking `n` out of `s` leaves `o`.  There is a rule for a node without
  children, one for an only child, and one for the node that takes over when there are two
  children.
* `DeficitRepair p x t`: below the place `p` the paths through `x` lack a black node, and
  making up for it ends in the shape `t`.  The rules look at the sibling of the place and
  at its far and near child.
* `Removal n s t` puts the two together.

`removal_iff` says that on a red-black shape exactly one shape comes out, and that it is the
one of `Shape.remove`.
-/

namespace RedBlack

open Shape

/-! ## The cases -/

/-- What taking `n` out of a shape leaves, by the children of `n`. -/
inductive Spliced (n : NodeId) (s : Shape) : Opening → Prop
  /-- Nothing comes in the place of a node without children, so the paths through the place
  lack a black node if `n` was black. -/
  | noChild {p : Path} {c : Color} (hs : s = p.fill (node c leaf n leaf)) :
      Spliced n s ⟨p, leaf, c = .black⟩
  /-- An only child comes in the place of `n`, with its colour. -/
  | onlyChild {p : Path} {d : Side} {c : Color} {x : Shape} (hx : x ≠ leaf)
      (hs : s = p.fill (branch d c n x leaf)) : Spliced n s ⟨p, x.paint c, false⟩
  /-- With two children the leftmost node `m` of the right side comes in the place of `n`,
  with its colour.  What hung from `m` comes in the place of `m` and turns black; if that is
  nothing, the paths through the place of `m` lack a black node if `m` was black. -/
  | successor {p down : Path} {c c' : Color} {l rest : Shape} {m : NodeId} (hl : l ≠ leaf)
      (hdown : ∀ f ∈ down, f.side = .left)
      (hs : s = p.fill (node c l n (down.fill (node c' leaf m rest)))) :
      Spliced n s ⟨down ++ ⟨.right, c, m, l⟩ :: p, rest.paint .black, rest = leaf ∧ c' = .black⟩

/-- The paths through `x`, which hangs in a place, lack a black node; making up for it ends
in the shape `t`.  The node over the place stands in the frame `f`.  The node `m` in its
other slot is the sibling, with a far child and one near the place. -/
inductive DeficitRepair : Path → Shape → Shape → Prop
  /-- At the top all paths are equally short. -/
  | top {x : Shape} : DeficitRepair [] x x
  /-- A red sibling is rotated above the node, and the two exchange their colours.  The near
  child is the next sibling. -/
  | redSibling {f : Frame} {up : Path} {x t far near : Shape} {m : NodeId}
      (hother : f.other = branch f.side.opposite .red m far near)
      (next : DeficitRepair
        ({ f with color := .red, other := near } :: ⟨f.side, f.color, m, far⟩ :: up) x t) :
      DeficitRepair (f :: up) x t
  /-- No red child of the sibling, below a red node: the sibling turns red and the node
  black. -/
  | redParent {f : Frame} {up : Path} {x far near : Shape} {m : NodeId}
      (hother : f.other = branch f.side.opposite .black m far near)
      (hfar : far.isRed = false) (hnear : near.isRed = false) (hf : f.color = .red) :
      DeficitRepair (f :: up) x
        (up.fill (branch f.side.opposite .black f.id (branch f.side.opposite .red m far near) x))
  /-- No red child of the sibling, below a black node: the sibling turns red, and the paths
  through the node are short. -/
  | blackParent {f : Frame} {up : Path} {x t far near : Shape} {m : NodeId}
      (hother : f.other = branch f.side.opposite .black m far near)
      (hfar : far.isRed = false) (hnear : near.isRed = false) (hf : f.color = .black)
      (next : DeficitRepair up
        (branch f.side.opposite .black f.id (branch f.side.opposite .red m far near) x) t) :
      DeficitRepair (f :: up) x t
  /-- A red near child `k` only: it is rotated above the sibling, which is the red far child
  of `k` then. -/
  | redNear {f : Frame} {up : Path} {x t far u v : Shape} {m k : NodeId}
      (hother : f.other = branch f.side.opposite .black m far (branch f.side .red k u v))
      (hfar : far.isRed = false)
      (next : DeficitRepair
        (⟨f.side, f.color, f.id, branch f.side.opposite .black k
          (branch f.side.opposite .red m far v) u⟩ :: up) x t) :
      DeficitRepair (f :: up) x t
  /-- A red far child: the sibling is rotated above the node and takes its colour, and the
  two below it turn black. -/
  | redFar {f : Frame} {up : Path} {x far near : Shape} {m : NodeId}
      (hother : f.other = branch f.side.opposite .black m far near) (hfar : far.isRed = true) :
      DeficitRepair (f :: up) x
        (up.fill (branch f.side.opposite f.color m (far.paint .black)
          (branch f.side.opposite .black f.id near x)))

/-- Taking `n` out of a shape and making up for a black node, if one is lacking. -/
inductive Removal (n : NodeId) (s : Shape) : Shape → Prop
  | even {o : Opening} (hsplice : Spliced n s o) (hshort : o.short = false) :
      Removal n s o.shape
  | short {o : Opening} {t : Shape} (hsplice : Spliced n s o) (hshort : o.short = true)
      (hrepair : DeficitRepair o.place o.rest t) : Removal n s t

namespace Shape

/-! ## One place for one node -/

/-- What is searched for below a place is found there. -/
theorem focus?_go_fill {n : NodeId} {p : Path} {s : Shape} (hn : n ∈ s.toList)
    (hnodup : (p.fill s).toList.Nodup) (up : Path) :
    focus?.go n up (p.fill s) = focus?.go n (p ++ up) s := by
  induction p generalizing s with
  | nil => rfl
  | cons f p ih =>
    rw [Path.fill, ih (mem_toList_close.mpr (.inr (.inl hn))) hnodup]
    obtain ⟨hclose, -⟩ := (Path.nodup_toList_fill (s := f.close s)).mp hnodup
    obtain ⟨hs, -, -, -, hdisjoint⟩ := nodup_toList_branch.mp hclose
    have hne : f.id ≠ n := by
      intro hid
      exact hs (hid ▸ hn)
    obtain ⟨q, c, l, r, hgo⟩ := exists_focus?_go hn (f :: (p ++ up))
    obtain ⟨d, c', m, other⟩ := f
    rw [List.cons_append, hgo]
    cases d with
    | left =>
      show focus?.go n (p ++ up) (node c' s m other) = _
      rw [focus?.go, if_neg hne, hgo]
      rfl
    | right =>
      show focus?.go n (p ++ up) (node c' other m s) = _
      rw [focus?.go, if_neg hne, focus?_go_of_notMem (hdisjoint hn), hgo]
      rfl

/-- A node that hangs in a place is found there. -/
theorem focus?_fill {n : NodeId} {p : Path} {c : Color} {l r : Shape}
    (hnodup : (p.fill (node c l n r)).toList.Nodup) :
    (p.fill (node c l n r)).focus? n = some (p, node c l n r) := by
  have hn : n ∈ (node c l n r).toList := by simp [toList]
  rw [focus?, focus?_go_fill hn hnodup, List.append_nil, focus?.go, if_pos rfl]

theorem remove_fill {n : NodeId} {p : Path} {c : Color} {l r : Shape}
    (hnodup : (p.fill (node c l n r)).toList.Nodup) :
    (p.fill (node c l n r)).remove n = removeAt p (node c l n r) := by
  rw [remove, focus?_fill hnodup]

/-- A node has one place, and one subtree hangs there. -/
theorem place_unique {n : NodeId} {p q : Path} {c c' : Color} {l l' r r' : Shape}
    (hnodup : (p.fill (node c l n r)).toList.Nodup)
    (h : p.fill (node c l n r) = q.fill (node c' l' n r')) :
    p = q ∧ node c l n r = node c' l' n r' := by
  have hp := focus?_fill hnodup
  rw [h] at hnodup hp
  rw [focus?_fill hnodup] at hp
  exact (Prod.mk.inj (Option.some.inj hp)).imp Eq.symm Eq.symm

/-- With only left slots over it, a node without left child is the leftmost one. -/
theorem leftmost_fill {down : Path} (hdown : ∀ f ∈ down, f.side = .left) {s : Shape}
    (hs : s ≠ leaf) (up : Path) : leftmost up (down.fill s) = leftmost (down ++ up) s := by
  induction down generalizing s with
  | nil => rfl
  | cons f down ih =>
    rw [List.forall_mem_cons] at hdown
    obtain ⟨hside, hdown⟩ := hdown
    obtain ⟨d, c, m, other⟩ := f
    obtain rfl : d = .left := hside
    rw [Path.fill, ih hdown (by simp [Frame.close, branch])]
    cases s with
    | leaf => exact absurd rfl hs
    | node c' l n r => rfl

/-! ## Taking a node out -/

/-- An only child comes in the place of its node. -/
theorem spliceAt_of_onlyChild {p : Path} {c : Color} {x : Shape} (d : Side) (n : NodeId)
    (hx : x ≠ leaf) : spliceAt p (branch d c n x leaf) = ⟨p, x.paint c, false⟩ := by
  cases x with
  | leaf => exact absurd rfl hx
  | node => cases d <;> rfl

end Shape

/-- No two cases fit, and the one that does is that of `spliceAt`. -/
theorem Spliced.eq_spliceAt {n : NodeId} {p : Path} {c : Color} {l r : Shape} {o : Opening}
    (h : Spliced n (p.fill (node c l n r)) o) (hnodup : (p.fill (node c l n r)).toList.Nodup) :
    o = spliceAt p (node c l n r) := by
  cases h with
  | noChild hs =>
    obtain ⟨rfl, hnode⟩ := place_unique hnodup hs
    rw [hnode]
    rfl
  | @onlyChild q d c' x hx hs =>
    have hplace : p = q ∧ node c l n r = branch d c' n x leaf := by
      cases d <;> exact place_unique hnodup hs
    obtain ⟨rfl, hnode⟩ := hplace
    rw [hnode, spliceAt_of_onlyChild d n hx]
  | @successor q down c' c'' l' rest m hl hdown hs =>
    obtain ⟨rfl, hnode⟩ := place_unique hnodup hs
    have hleft := leftmost_fill hdown (s := node c'' leaf m rest) (by simp) []
    rw [List.append_nil] at hleft
    rw [hnode, spliceAt_of_leftmost n hl hleft]

namespace Shape

/-- There is always a case. -/
theorem spliced_spliceAt (p : Path) (c : Color) (l : Shape) (n : NodeId) (r : Shape) :
    Spliced n (p.fill (node c l n r)) (spliceAt p (node c l n r)) := by
  by_cases hl : l = leaf
  · subst hl
    by_cases hr : r = leaf
    · subst hr
      exact .noChild rfl
    · have hsplice : spliceAt p (node c leaf n r) = ⟨p, r.paint c, false⟩ :=
        spliceAt_of_onlyChild .right n hr
      rw [hsplice]
      exact .onlyChild (d := .right) hr rfl
  · by_cases hr : r = leaf
    · subst hr
      have hsplice : spliceAt p (node c l n leaf) = ⟨p, l.paint c, false⟩ :=
        spliceAt_of_onlyChild .left n hl
      rw [hsplice]
      exact .onlyChild (d := .left) hl rfl
    · obtain ⟨down, c', m, rest, hleft⟩ := exists_leftmost hr []
      rw [spliceAt_of_leftmost n hl hleft]
      obtain ⟨down, rfl, hdown, rfl⟩ := leftmost_eq_some hleft
      rw [List.append_nil]
      exact .successor hl hdown rfl

end Shape

/-! ## Making up for a black node -/

/-- No two cases fit, so the repair has one end. -/
theorem DeficitRepair.unique {p : Path} {x t t' : Shape} (h : DeficitRepair p x t)
    (h' : DeficitRepair p x t') : t = t' := by
  induction h generalizing t' with
  | top =>
    cases h' with
    | top => rfl
  | redSibling hother next ih =>
    cases h' with
    | redSibling hother' next' =>
      obtain ⟨-, rfl, rfl, rfl⟩ := branch_inj (hother.symm.trans hother')
      exact ih next'
    | _ => grind [branch_inj]
  | redParent hother hfar hnear hf =>
    cases h' with
    | redParent hother' =>
      obtain ⟨-, rfl, rfl, rfl⟩ := branch_inj (hother.symm.trans hother')
      rfl
    | _ => grind [branch_inj, isRed_branch]
  | blackParent hother hfar hnear hf next ih =>
    cases h' with
    | blackParent hother' hfar' hnear' hf' next' =>
      obtain ⟨-, rfl, rfl, rfl⟩ := branch_inj (hother.symm.trans hother')
      exact ih next'
    | _ => grind [branch_inj, isRed_branch]
  | redNear hother hfar next ih =>
    cases h' with
    | redNear hother' hfar' next' =>
      obtain ⟨-, rfl, rfl, hnear⟩ := branch_inj (hother.symm.trans hother')
      obtain ⟨-, rfl, rfl, rfl⟩ := branch_inj hnear
      exact ih next'
    | _ => grind [branch_inj, isRed_branch]
  | redFar hother hfar =>
    cases h' with
    | redFar hother' =>
      obtain ⟨-, rfl, rfl, rfl⟩ := branch_inj (hother.symm.trans hother')
      rfl
    | _ => grind [branch_inj]

namespace Shape

/-- A red node is not short after the repair of its frame. -/
theorem balanceSibling_done {f : Frame} (hf : f.color = .red) (s : Shape) :
    (balanceSibling f s).2 = false := by
  simp only [balanceSibling, if_pos hf]
  split
  · rfl
  · split
    · rfl
    · rfl

/-- Beside a black sibling of positive black height the repair goes by the cases, if it does
so further up where a black node passes the deficit on. -/
theorem deficitRepair_cons {f : Frame} {h : Nat} (hother : f.other.Balanced (h + 1))
    (hblack : f.other.isRed = false) (up : Path) (x : Shape)
    (hup : f.color = .black → ∀ y, DeficitRepair up y (repairDeficit up y)) :
    DeficitRepair (f :: up) x (repairDeficit (f :: up) x) := by
  obtain ⟨m, far, near, hm, -, -⟩ := exists_black_branch f.side.opposite hother hblack
  rw [repairDeficit_cons_of_black hblack]
  by_cases hfar : far.isRed = true
  · rw [balanceSibling_of_far hm hfar]
    exact .redFar hm hfar
  · have hfar : far.isRed = false := by simpa using hfar
    by_cases hnear : near.isRed = true
    · obtain ⟨k, u, v, rfl⟩ := exists_branch_of_isRed f.side hnear
      rw [balanceSibling_of_near hm hfar]
      -- After the first rotation the old sibling is a red far child.
      apply DeficitRepair.redNear hm hfar
      have hpaint : branch f.side.opposite .black m far v =
          (branch f.side.opposite .red m far v).paint .black := (paint_branch ..).symm
      rw [hpaint]
      exact .redFar rfl isRed_branch
    · have hnear : near.isRed = false := by simpa using hnear
      cases hf : f.color with
      | red =>
        rw [balanceSibling_of_red hm hfar hnear hf]
        exact .redParent hm hfar hnear hf
      | black =>
        rw [balanceSibling_of_black hm hfar hnear hf]
        exact .blackParent hm hfar hnear hf (hup hf _)

/-- The repair goes by the cases, from any place that accepts one black node more. -/
theorem deficitRepair_repairDeficit {p : Path} {h : Nat} (hp : p.Accepts false (h + 1))
    (x : Shape) : DeficitRepair p x (repairDeficit p x) := by
  induction p generalizing h x with
  | nil => exact .top
  | cons f up ih =>
    obtain ⟨hf, hother, hup⟩ := hp
    by_cases hred : f.other.isRed = true
    · obtain ⟨m, far, near, hm⟩ := exists_branch_of_isRed f.side.opposite hred
      rw [hm] at hother
      obtain ⟨hblack, k, hk, -, hnear⟩ := balanced_branch.mp hother
      obtain rfl : h + 1 = k := hk
      -- The node is red once its sibling is above it, so the next frame is the last.
      have hnext := deficitRepair_cons (f := { f with color := .red, other := near }) hnear
        (hblack rfl).2 (⟨f.side, f.color, m, far⟩ :: up) x nofun
      rw [repairDeficit_cons_of_black (hblack rfl).2, balanceSibling_done rfl] at hnext
      rw [repairDeficit_cons_of_red hm]
      exact .redSibling hm hnext
    · apply deficitRepair_cons hother (by simpa using hred) up x
      intro hcolor y
      rw [hcolor] at hup
      exact ih hup.of_false y

/-! ## The removal of a node -/

/-- Removal goes by the cases. -/
theorem removal_removeAt {n : NodeId} {p : Path} {c : Color} {l r : Shape}
    (hs : (p.fill (node c l n r)).IsRedBlack) :
    Removal n (p.fill (node c l n r)) (removeAt p (node c l n r)) := by
  have hsplice := spliced_spliceAt p c l n r
  have hrepairable := repairable_spliceAt hs
  rw [removeAt_eq, Opening.repaired]
  unfold Opening.Repairable at hrepairable
  split
  · next hshort =>
    rw [if_pos hshort] at hrepairable
    exact .short hsplice hshort (deficitRepair_repairDeficit hrepairable.1 _)
  · next hshort => exact .even hsplice (by simpa using hshort)

end Shape

/-- What comes out of a removal is settled by the one case that fits. -/
theorem Removal.unique {n : NodeId} {p : Path} {c : Color} {l r t t' : Shape}
    (hnodup : (p.fill (node c l n r)).toList.Nodup)
    (h : Removal n (p.fill (node c l n r)) t) (h' : Removal n (p.fill (node c l n r)) t') :
    t = t' := by
  cases h with
  | even ho hshort =>
    obtain rfl := ho.eq_spliceAt hnodup
    cases h' with
    | even ho' => rw [ho'.eq_spliceAt hnodup]
    | short ho' hshort' =>
      rw [ho'.eq_spliceAt hnodup, hshort] at hshort'
      cases hshort'
  | short ho hshort hrepair =>
    obtain rfl := ho.eq_spliceAt hnodup
    cases h' with
    | even ho' hshort' =>
      rw [ho'.eq_spliceAt hnodup, hshort] at hshort'
      cases hshort'
    | short ho' hshort' hrepair' =>
      rw [ho'.eq_spliceAt hnodup] at hrepair'
      exact hrepair.unique hrepair'

namespace Shape

/-- On a red-black shape one shape comes out of the cases, and it is what `remove`
computes. -/
theorem removal_iff {n : NodeId} {s t : Shape} (hs : s.IsRedBlack) (hnodup : s.toList.Nodup)
    (hn : n ∈ s.toList) : Removal n s t ↔ t = s.remove n := by
  obtain ⟨p, c, l, r, -, rfl⟩ := exists_focus? hn
  rw [remove_fill hnodup]
  constructor
  · intro h
    exact h.unique hnodup (removal_removeAt hs)
  · rintro rfl
    exact removal_removeAt hs

end Shape

end RedBlack
