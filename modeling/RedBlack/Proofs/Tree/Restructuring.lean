import RedBlack.Proofs.Shape.Rotations
import RedBlack.Proofs.Tree.Safety

/-!
# Repairs on records take few rotations

The repair of a tree goes up as far as it has to.  What it does to the links is bounded all the
same: every round that is not the last one writes colours only.

* `SameLinks` relates two trees that differ in colours at most.
* `SameLinks.redRound` and `ShortAt.sameLinks` are the rounds that go on.  For a deficit this
  takes the invariant: below a red sibling the node that was short is red, so that no further
  round comes after the rotation.
* `repairs_rotate_little` counts the rotations of whole repairs, on any red-black tree.
-/

namespace RedBlack.Tree

open Shape Skeleton

/-! ## Rounds that only paint -/

/-- Every link is what it was.  The colours need not be. -/
structure SameLinks (t t' : Tree) : Prop where
  top : t'.top = t.top
  parent : ∀ i, t'.parent i = t.parent i
  child : ∀ i d, t'.child i d = t.child i d

theorem SameLinks.refl (t : Tree) : t.SameLinks t := ⟨rfl, fun _ => rfl, fun _ _ => rfl⟩

theorem SameLinks.trans {t t' t'' : Tree} (h : t.SameLinks t') (h' : t'.SameLinks t'') :
    t.SameLinks t'' where
  top := h'.top.trans h.top
  parent i := (h'.parent i).trans (h.parent i)
  child i d := (h'.child i d).trans (h.child i d)

theorem SameLinks.setColor {t t' : Tree} (h : t.SameLinks t') (n : NodeId) (c : Color) :
    t.SameLinks (t'.setColor n c) :=
  h.trans ⟨rfl, fun _ => parent_setColor .., fun _ _ => child_setColor ..⟩

/-- A round that passes the red up writes colours only. -/
theorem SameLinks.redRound {x x' : Tree × NodeId} (h : redRound x = .ok (.again x')) :
    x.1.SameLinks x'.1 := by
  obtain ⟨t, n⟩ := x
  simp only [Tree.redRound] at h
  split at h
  · cases h
  split at h
  · cases h
  split at h
  · cases h
  split at h
  · simp only [Except.ok.injEq, Round.again.injEq] at h
    rw [← h, passRedUp]
    exact (((SameLinks.refl t).setColor _ _).setColor _ _).setColor _ _
  · split at h <;> cases h

/-- So does the end of a round that passes the deficit up. -/
theorem SameLinks.balanceSibling {t : Tree} {p s : NodeId} {d : Side}
    {x : Tree × NodeId × Option NodeId} (h : t.balanceSibling p s d = .again x) :
    t.SameLinks x.1 := by
  simp only [Tree.balanceSibling] at h
  split at h
  · cases h
  split at h
  · cases h
  split at h
  · cases h
  split at h
  · cases h
  · cases h
    exact (SameLinks.refl t).setColor _ _

/-- A round of the repair of a deficit that is not the last one had a black sibling. -/
theorem ShortAt.sameLinks {x x' : Tree × NodeId × Option NodeId} (h : ShortAt x)
    (hround : deficitRound x = .ok (.again x')) : x.1.SameLinks x'.1 := by
  obtain ⟨t, place⟩ := x
  obtain ⟨f, up, s, k, hs, ⟨-, hother, -⟩, hbal, rfl⟩ := h
  by_cases hred : f.other.isRed = true
  · obtain ⟨m, far, near, hm⟩ := exists_branch_of_isRed f.side.opposite hred
    rw [hm] at hother
    obtain ⟨hchildren, j, hj, -, hnear⟩ := balanced_branch.mp hother
    obtain rfl : k + 1 = j := hj
    obtain ⟨t', hdone, -⟩ := hs.deficitRound_of_red hm hnear (hchildren rfl).2 hbal
    cases hdone.symm.trans hround
  · obtain ⟨m, far, near, hm, -⟩ := exists_black_branch f.side.opposite hother (by simpa using hred)
    obtain ⟨hside, hchild, hcolor⟩ := hs.sideOf_short hm
    have hne : ¬t.color m = .red := by simp [hcolor]
    simp only [Tree.deficitRound, hside, hchild, if_neg hne, Except.ok.injEq] at hround
    exact SameLinks.balanceSibling hround

/-! ## Whole repairs -/

/-- The repair of a red node finds the links as they were before it, in every round. -/
theorem sameLinks_of_mem_trail_redRound {t : Tree} {n : NodeId} {x : Tree × NodeId}
    {rounds : Nat} (hx : x ∈ trail redRound rounds (t, n)) : t.SameLinks x.1 :=
  forall_mem_trail (P := fun y => t.SameLinks y.1)
    (fun _ _ hy hround => hy.trans (.redRound hround)) (.refl t) rounds x hx

/-- So does the repair of a deficit. -/
theorem ShortAt.sameLinks_of_mem_trail {x y : Tree × NodeId × Option NodeId} {rounds : Nat}
    (h : ShortAt x) (hy : y ∈ trail deficitRound rounds x) : x.1.SameLinks y.1 :=
  (forall_mem_trail (P := fun y => ShortAt y ∧ x.1.SameLinks y.1)
    (fun _ _ hy hround => ⟨hy.1.step hround, hy.2.trans (hy.1.sameLinks hround)⟩)
    ⟨h, .refl _⟩ rounds y hy).2

/-- Repairs of red-black trees rotate little, however far up they go.

* When a node was linked into a vacant slot, at most two rotations lead from the tree with the new
  leaf to the repaired tree.
* When a node is removed, at most three rotations lead from the tree without the node to
  the repaired tree.
* Every round of either repair starts from the links that the first one starts from: the rounds
  before it have only written colours. -/
theorem repairs_rotate_little {t : Tree} {s : Shape} (h : t.Spells s) (hs : s.IsRedBlack) :
    (∀ n slot, n ∉ s.toList → t.Vacant s.toList slot →
      ∃ linked t' s', (t.link n slot).Spells linked ∧
        (t.link n slot).rebalance (some n) = .ok () t' ∧ t'.Spells s' ∧
        RotatesWithin 2 linked.skeleton s'.skeleton ∧
        ∀ x ∈ trail redRound (t.link n slot).bound (t.link n slot, n),
          (t.link n slot).SameLinks x.1) ∧
    ∀ n ∈ s.toList,
      ∃ spliced rest t' s', t.splice n = .ok spliced ∧ spliced.tree.Spells rest ∧
        t.remove (some n) = .ok () t' ∧ t'.Spells s' ∧
        RotatesWithin 3 rest.skeleton s'.skeleton ∧
        ∀ p, spliced.deficit = some p →
          ∀ x ∈ trail deficitRound spliced.tree.bound (spliced.tree, p, none),
            spliced.tree.SameLinks x.1 := by
  refine ⟨fun n slot hn hslot => ?_, fun n hn => ?_⟩
  · obtain ⟨p, rfl, rfl⟩ := h.exists_place hslot
    have hlink := h.reshapes_link fun hi => hn (Path.mem_toList_fill.mpr (.inr hi))
    obtain ⟨t', hrebalance, ht'⟩ := hlink.spells.rebalance hs
    exact ⟨_, t', _, hlink.spells, hrebalance, ht'.spells, rotatesWithin_repairRed p _,
      fun x => sameLinks_of_mem_trail_redRound⟩
  · obtain ⟨spliced, hsplice, hshort⟩ := h.shortAt_splice hs hn
    obtain ⟨p, c, l, r, -, rfl⟩ := exists_focus? hn
    obtain ⟨t', hremove, ht'⟩ := h.remove hs
    obtain ⟨spliced', hsplice', hrest⟩ := h.splice_deficit hs
    obtain rfl : spliced = spliced' := Except.ok.inj (hsplice.symm.trans hsplice')
    have hpaint : ∀ q, spliced.deficit = some q →
        ∀ x ∈ trail deficitRound spliced.tree.bound (spliced.tree, q, none),
          spliced.tree.SameLinks x.1 := fun q hq x => (hshort q hq).sameLinks_of_mem_trail
    obtain ⟨-, hdone⟩ | ⟨f, up, -, -, hleft, hrepair⟩ := hrest
    · exact ⟨spliced, _, t', _, hsplice, hdone.spells, hremove, ht'.spells, .stay .., hpaint⟩
    · rw [hrepair] at ht'
      exact ⟨spliced, _, t', _, hsplice, hleft.spells, hremove, ht'.spells,
        rotatesWithin_repairDeficit (f :: up) leaf, hpaint⟩

/-- Node 4 is linked below the inner side of a red node.  Node 1 goes, and the other side of
its parent has a red top whose near child has a red child. -/
theorem repairs_rotate_little_of_red_sibling :
    let s : Shape := .node .black (.node .black .leaf 1 .leaf) 5
      (.node .red (.node .black .leaf 7 (.node .red .leaf 6 .leaf)) 8
        (.node .black .leaf 9 (.node .red .leaf 2 .leaf)))
    let t := Tree.build {} s
    let u := t.link 4 (.under 2 .left)
    t.Spells s ∧ s.IsRedBlack ∧ 4 ∉ s.toList ∧ t.Vacant s.toList (.under 2 .left) ∧
      (∃ linked t' s', u.Spells linked ∧ u.rebalance (some 4) = .ok () t' ∧ t'.Spells s' ∧
        RotatesWithin 2 linked.skeleton s'.skeleton ∧
        ∀ x ∈ trail redRound u.bound (u, 4), u.SameLinks x.1) ∧
      1 ∈ s.toList ∧
      ∃ spliced rest t' s', t.splice 1 = .ok spliced ∧ spliced.tree.Spells rest ∧
        t.remove (some 1) = .ok () t' ∧ t'.Spells s' ∧
        RotatesWithin 3 rest.skeleton s'.skeleton ∧
        ∀ p, spliced.deficit = some p →
          ∀ x ∈ trail deficitRound spliced.tree.bound (spliced.tree, p, none),
            spliced.tree.SameLinks x.1 := by
  intro s t u
  have h : t.Spells s := spells_build {} (by decide)
  have hs : s.IsRedBlack := by decide
  have hn : 4 ∉ s.toList := by decide
  have hslot : t.Vacant s.toList (.under 2 .left) := by decide +kernel
  have hm : 1 ∈ s.toList := by decide
  obtain ⟨hlink, hremove⟩ := repairs_rotate_little h hs
  exact ⟨h, hs, hn, hslot, hlink 4 _ hn hslot, hm, hremove 1 hm⟩

end RedBlack.Tree
