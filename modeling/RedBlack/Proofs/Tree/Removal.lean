import RedBlack.Proofs.Tree.Insertion
import RedBlack.Proofs.Tree.Splice

/-!
# Unlinking a node and repairing the deficit, on records and on shapes

* `Spells.balanceSibling` is one frame with a black sibling, by the four cases that the
  shapes have.
* `Spells.loop_deficitRound` is the loop.  Its invariant says of the place that it
  accepts one black node more than what hangs there has, so that the sibling and what
  is asked of its children are there.
* `Spells.unlink` is the removal of a node from a red-black tree.
-/

namespace RedBlack.Tree

open Shape

/-! ## One frame -/

/-- How a round ends that leaves `t` and has dealt with the node `n` below `up`. -/
def afterFrame (t : Tree) (up : Path) (n : NodeId) (short : Bool) :
    Round (Tree × NodeId × Option NodeId) Tree :=
  match short, up.parent with
  | true, some g => .again (t, g, some n)
  | _, _ => .done t

@[simp] theorem afterFrame_false (t : Tree) (up : Path) (n : NodeId) :
    t.afterFrame up n false = .done t := by
  simp [afterFrame]

section Sibling

variable {t : Tree} {up : Path} {f : Frame} {x far near : Shape} {m : NodeId}

/-- The tree with the sibling taken apart at its two children. -/
theorem Spells.sibling (h : t.Spells (Path.fill (f :: up) x))
    (hother : f.other = branch f.side.opposite .black m far near) :
    t.Spells (Path.fill up (branch f.side.opposite f.color f.id
      (branch f.side.opposite .black m far near) x)) := by
  rw [Path.fill, close_eq_branch_opposite, hother] at h
  exact h

/-- The two children of the sibling. -/
theorem Spells.hangs_sibling {c : Color} (h : t.Spells (Path.fill (f :: up) x))
    (hother : f.other = branch f.side.opposite c m far near) :
    (t.child m f.side.opposite = far.top ∧ t.child m f.side.opposite.opposite = near.top) ∧
      far.Hangs t.store (some m) ∧ near.Hangs t.store (some m) := by
  obtain ⟨⟨-, hhangs, -⟩, -⟩ := spells_fill_iff.mp h
  rw [hother] at hhangs
  obtain ⟨⟨-, -, hfar, hnear⟩, hf, hn⟩ := hangs_branch.mp hhangs
  exact ⟨⟨hfar, hnear⟩, hf, hn⟩

theorem Spells.redChild?_sibling (h : t.Spells (Path.fill (f :: up) x))
    (hother : f.other = branch f.side.opposite .black m far near) :
    t.redChild? m f.side.opposite = (if far.isRed then far.top else none) ∧
      t.redChild? m f.side.opposite.opposite = if near.isRed then near.top else none := by
  obtain ⟨⟨hfar, hnear⟩, hf, hn⟩ := h.hangs_sibling hother
  exact ⟨redChild?_eq hfar hf, redChild?_eq hnear hn⟩

/-- Without red children the sibling turns red. -/
theorem Spells.reshapes_sibling_red (h : t.Spells (Path.fill (f :: up) x))
    (hother : f.other = branch f.side.opposite .black m far near) :
    t.Reshapes (t.setColor m .red) (Path.fill up (branch f.side.opposite f.color f.id
      (branch f.side.opposite .red m far near) x)) := by
  have hplace : t.Spells (Path.fill (⟨f.side.opposite, f.color, f.id, x⟩ :: up)
      (branch f.side.opposite .black m far near)) := h.sibling hother
  have hred := hplace.reshapes_setColor (top_branch ..) .red
  rw [paint_branch] at hred
  exact hred

/-- One frame on records comes to what it comes to on shapes. -/
theorem Spells.balanceSibling (h : t.Spells (Path.fill (f :: up) x))
    (hother : f.other = branch f.side.opposite .black m far near) :
    ∃ t', t.balanceSibling f.id m f.side.opposite =
        afterFrame t' up f.id (Shape.balanceSibling f x).2 ∧
      t.Reshapes t' (up.fill (Shape.balanceSibling f x).1) := by
  obtain ⟨hfarChild, hnearChild⟩ := h.redChild?_sibling hother
  by_cases hfar : far.isRed = true
  · obtain ⟨k, u, v, hk⟩ := exists_branch_of_isRed .left hfar
    have htop : far.top = some k := by rw [hk, top_branch]
    rw [if_pos hfar, htop] at hfarChild
    rw [balanceSibling_of_far hother hfar]
    refine ⟨_, ?_, (h.sibling hother).reshapes_closeDeficit htop (.refl ..)⟩
    simp only [Tree.balanceSibling, hfarChild, afterFrame]
  rw [if_neg hfar] at hfarChild
  have hfb : far.isRed = false := by simpa using hfar
  by_cases hnear : near.isRed = true
  · obtain ⟨k, u, v, rfl⟩ := exists_branch_of_isRed f.side hnear
    rw [if_pos hnear, top_branch] at hnearChild
    rw [balanceSibling_of_near hother hfb]
    have hnode := h.sibling hother
    rw [← branch_opposite f.side .red k] at hnode
    refine ⟨_, ?_, hnode.reshapes_liftNear_closeDeficit⟩
    simp only [Tree.balanceSibling, hfarChild, hnearChild, afterFrame]
  rw [if_neg hnear] at hnearChild
  have hnb : near.isRed = false := by simpa using hnear
  have hred := h.reshapes_sibling_red hother
  obtain ⟨-, hnode, -⟩ := spells_fill_iff.mp hred.spells
  obtain ⟨⟨hparent, hcolor, -⟩, -⟩ := hangs_branch.mp hnode
  cases hc : f.color with
  | red =>
    rw [balanceSibling_of_red hother hfb hnb hc]
    have hblack := hred.spells.reshapes_setColor (top_branch ..) .black
    rw [paint_branch] at hblack
    refine ⟨_, ?_, hred.trans hblack fun i => ?_⟩
    · simp only [Tree.balanceSibling, hfarChild, hnearChild, hcolor, hc, if_true, afterFrame]
    · simp only [Path.mem_toList_fill, mem_toList_branch]
      exact id
  | black =>
    rw [balanceSibling_of_black hother hfb hnb hc]
    rw [hc] at hred
    refine ⟨_, ?_, hred⟩
    have hne : ¬f.color = .red := by simp [hc]
    simp only [Tree.balanceSibling, hfarChild, hnearChild, hcolor, if_neg hne, hparent, afterFrame]
    cases up.parent <;> rfl

end Sibling

/-! ## One round -/

section Round

variable {t : Tree} {up : Path} {f : Frame} {x far near : Shape} {m : NodeId} {c : Color}

/-- The sibling is found, on the side where the place is not. -/
theorem Spells.sideOf_short (h : t.Spells (Path.fill (f :: up) x))
    (hother : f.other = branch f.side.opposite c m far near) :
    t.sideOf f.id x.top = f.side ∧ t.child f.id f.side.opposite = some m ∧ t.color m = c := by
  obtain ⟨haround, -, -, -, hdisj⟩ := spells_fill_iff.mp h
  have hm : f.other.top = some m := by rw [hother, top_branch]
  have hne : f.other.top ≠ x.top := by
    intro htop
    refine hdisj (mem_toList_of_top (htop ▸ hm)) (Path.mem_nodes_cons.mpr (.inr (.inl ?_)))
    exact mem_toList_of_top hm
  refine ⟨haround.sideOf_eq hne, ?_⟩
  obtain ⟨⟨-, -, -, hchild⟩, hhangs, -⟩ := haround
  rw [hother] at hhangs
  obtain ⟨⟨-, hcolor, -⟩, -⟩ := hangs_branch.mp hhangs
  exact ⟨hchild.trans hm, hcolor⟩

/-- A round with a black sibling is one frame. -/
theorem Spells.deficitRound_of_black (h : t.Spells (Path.fill (f :: up) x))
    (hother : f.other = branch f.side.opposite .black m far near) :
    ∃ t', deficitRound (t, f.id, x.top) =
        .ok (afterFrame t' up f.id (Shape.balanceSibling f x).2) ∧
      t.Reshapes t' (up.fill (Shape.balanceSibling f x).1) := by
  obtain ⟨hside, hchild, hcolor⟩ := h.sideOf_short hother
  obtain ⟨t', hround, ht'⟩ := h.balanceSibling hother
  refine ⟨t', ?_, ht'⟩
  have hne : ¬t.color m = .red := by simp [hcolor]
  simp only [deficitRound, hside, hchild, if_neg hne, hround]

/-- A red sibling is lifted above the node, and then its near child is the sibling in a frame
of its own. -/
theorem Spells.lowerShort (h : t.Spells (Path.fill (f :: up) x))
    (hother : f.other = branch f.side.opposite .red m far near) {s : NodeId}
    (hs : near.top = some s) :
    ∃ t', t.lowerShort f.id m f.side.opposite = .ok (t', s) ∧
      t.Reshapes t' (Path.fill ({ f with color := .red, other := near } ::
        ⟨f.side, f.color, m, far⟩ :: up) x) := by
  have hnode : t.Spells (Path.fill up (branch f.side.opposite f.color f.id
      (branch f.side.opposite .red m far near) x)) := by
    rw [Path.fill, close_eq_branch_opposite, hother] at h
    exact h
  refine ⟨_, lowerShort_eq ?_, ?_⟩
  · obtain ⟨⟨-, hinner⟩, -⟩ := h.hangs_sibling hother
    rw [hinner, hs]
  · rw [Path.fill, Path.fill, close_eq_branch_opposite, close_eq_branch_opposite]
    exact hnode.reshapes_rotate .red

/-- A round with a red sibling: the one frame after it is lifted ends the repair. -/
theorem Spells.deficitRound_of_red {k : Nat} (h : t.Spells (Path.fill (f :: up) x))
    (hother : f.other = branch f.side.opposite .red m far near) (hnear : near.Balanced (k + 1))
    (hnb : near.isRed = false) (hx : x.Balanced k) :
    ∃ t', deficitRound (t, f.id, x.top) = .ok (.done t') ∧
      t.Reshapes t' (Path.fill (⟨f.side, f.color, m, far⟩ :: up)
        (Shape.balanceSibling { f with color := .red, other := near } x).1) := by
  obtain ⟨hside, hchild, hcolor⟩ := h.sideOf_short hother
  obtain ⟨s, far', near', hs, -⟩ := exists_black_branch f.side.opposite hnear hnb
  obtain ⟨t₁, hlower, ht₁⟩ := h.lowerShort hother (s := s) (by rw [hs, top_branch])
  obtain ⟨t₂, hround, ht₂⟩ := ht₁.spells.balanceSibling hs
  refine ⟨t₂, ?_, ht₁.trans ht₂ fun i hi => ?_⟩
  · -- The node is red in its new frame, so that the round ends the repair.
    have hshort : (Shape.balanceSibling { f with color := .red, other := near } x).2 = false := by
      obtain ⟨hshort, -⟩ | ⟨-, hc, -⟩ := balanceSibling_spec (f := { f with
        color := .red, other := near }) hnear hnb hx
      · exact hshort
      · cases hc
    rw [hshort, afterFrame_false] at hround
    simp only [deficitRound, hside, hchild, hcolor, if_true, hlower]
    exact congrArg Except.ok hround
  · simp only [Path.mem_toList_fill, toList_balanceSibling, mem_toList_close,
      Path.mem_nodes_cons] at hi ⊢
    tauto

end Round

/-! ## The loop -/

theorem top_balanceSibling_of_short {f : Frame} {x : Shape}
    (h : (Shape.balanceSibling f x).2 = true) : (Shape.balanceSibling f x).1.top = some f.id := by
  simp only [Shape.balanceSibling] at h ⊢
  split at h
  · cases h
  · next hfar =>
    rw [if_neg hfar]
    split at h
    · cases h
    · next hnear =>
      rw [if_neg hnear]
      split at h
      · cases h
      · next hred =>
        rw [if_neg hred]
        exact top_close ..

/-- What a round comes to: either the repair is done, or the node above is short in the
same way, of a shape with the node at its top. -/
theorem Spells.deficitRound {t : Tree} {f : Frame} {up : Path} {x : Shape} {k : Nat}
    (h : t.Spells (Path.fill (f :: up) x)) (hp : Path.Accepts (f :: up) false (k + 1))
    (hx : x.Balanced k) :
    ∃ t', (Tree.deficitRound (t, f.id, x.top) = .ok (.done t') ∧
        t.Reshapes t' (Shape.repairDeficit (f :: up) x)) ∨
      ∃ g up' s, up = g :: up' ∧
        Tree.deficitRound (t, f.id, x.top) = .ok (.again (t', g.id, s.top)) ∧
        t.Reshapes t' (Path.fill (g :: up') s) ∧
        Shape.repairDeficit (f :: up) x = Shape.repairDeficit (g :: up') s ∧
        Path.Accepts (g :: up') false (k + 1 + 1) ∧ s.Balanced (k + 1) := by
  obtain ⟨-, hother, hup⟩ := id hp
  by_cases hred : f.other.isRed = true
  · obtain ⟨m, far, near, hm⟩ := exists_branch_of_isRed f.side.opposite hred
    rw [hm] at hother
    obtain ⟨hchildren, j, hj, -, hnear⟩ := balanced_branch.mp hother
    obtain rfl : k + 1 = j := hj
    obtain ⟨t', hround, ht'⟩ := h.deficitRound_of_red hm hnear (hchildren rfl).2 hx
    rw [repairDeficit_cons_of_red hm]
    exact ⟨t', .inl ⟨hround, ht'⟩⟩
  · have hb : f.other.isRed = false := by simpa using hred
    obtain ⟨m, far, near, hm, -⟩ := exists_black_branch f.side.opposite hother hb
    obtain ⟨t', hround, ht'⟩ := h.deficitRound_of_black hm
    rw [repairDeficit_cons_of_black hb]
    obtain ⟨hshort, -⟩ | ⟨hshort, hfb, hbal, -⟩ := balanceSibling_spec hother hb hx
    · rw [hshort] at hround ⊢
      rw [afterFrame_false] at hround
      exact ⟨t', .inl ⟨hround, ht'⟩⟩
    · rw [hshort] at hround ⊢
      cases up with
      | nil => exact ⟨t', .inl ⟨hround, ht'⟩⟩
      | cons g up =>
        rw [hfb] at hup
        refine ⟨t', .inr ⟨g, up, _, rfl, ?_, ht', rfl, hup.of_false, hbal⟩⟩
        rw [top_balanceSibling_of_short hshort]
        exact hround

/-- The loop on records comes to what the repair comes to on shapes. -/
theorem Spells.loop_deficitRound {t : Tree} {f : Frame} {up : Path} {x : Shape} {k rounds : Nat}
    (h : t.Spells (Path.fill (f :: up) x)) (hp : Path.Accepts (f :: up) false (k + 1))
    (hx : x.Balanced k) (hr : up.length ≤ rounds) :
    ∃ t', loop Tree.deficitRound (rounds + 1) (t, f.id, x.top) = .ok t' ∧
      t.Reshapes t' (Shape.repairDeficit (f :: up) x) := by
  induction up generalizing t f x k rounds with
  | nil =>
    obtain ⟨t', ⟨hround, ht'⟩ | ⟨g, up', s, hup, -⟩⟩ := h.deficitRound hp hx
    · exact ⟨t', loop_of_done hround _, ht'⟩
    · cases hup
  | cons g up ih =>
    rw [List.length_cons] at hr
    obtain ⟨rounds, rfl⟩ : ∃ j, rounds = j + 1 := ⟨rounds - 1, by omega⟩
    obtain ⟨t', ⟨hround, ht'⟩ | ⟨g', up', s, hup, hround, ht', hsame, hacc, hs⟩⟩ :=
      h.deficitRound hp hx
    · exact ⟨t', loop_of_done hround _, ht'⟩
    · obtain ⟨rfl, rfl⟩ := List.cons.inj hup
      obtain ⟨t'', hloop, ht''⟩ := ih ht'.spells hacc hs (Nat.le_of_succ_le_succ hr)
      rw [hsame]
      refine ⟨t'', by rw [loop_of_again hround, hloop], ht'.trans ht'' fun i hi => ?_⟩
      rwa [toList_repairDeficit, ← Path.toList_fill]

/-! ## The removal -/

/-- The repair of a deficit, on records. -/
theorem Spells.repairDeficit {t : Tree} {f : Frame} {up : Path}
    (h : t.Spells (Path.fill (f :: up) leaf)) (hp : Path.Accepts (f :: up) false 1) :
    ∃ t', t.repairDeficit f.id = .ok t' ∧ t.Reshapes t' (Shape.repairDeficit (f :: up) leaf) := by
  have hbound := h.length_path_le
  rw [List.length_cons, bound] at hbound
  exact h.loop_deficitRound hp (balanced_leaf.mpr rfl) (by omega)

/-- What the splice leaves: all is done, or a place is short of a black node. -/
theorem Spells.splice_deficit {t : Tree} {p : Path} {c : Color} {l r : Shape} {n : NodeId}
    (h : t.Spells (p.fill (node c l n r))) (hrb : (p.fill (node c l n r)).IsRedBlack) :
    ∃ spliced, t.splice n = .ok spliced ∧
      (spliced.deficit = none ∧ t.Reshapes spliced.tree (removeAt p (node c l n r)) ∨
        ∃ f up, spliced.deficit = some (Frame.id f) ∧ Path.Accepts (f :: up) false 1 ∧
          t.Reshapes spliced.tree (Path.fill (f :: up) leaf) ∧
          removeAt p (node c l n r) = Shape.repairDeficit (f :: up) leaf) := by
  obtain ⟨t', hsplice, ht'⟩ := h.splice
  have hrep := repairable_spliceAt hrb
  refine ⟨_, hsplice, ?_⟩
  rw [removeAt_eq]
  generalize spliceAt p (node c l n r) = o at ht' hrep ⊢
  obtain ⟨place, rest, _ | _⟩ := o
  · exact .inl ⟨rfl, ht'⟩
  · obtain ⟨hacc, rfl⟩ := hrep
    cases place with
    | nil => exact .inl ⟨rfl, ht'⟩
    | cons f up => exact .inr ⟨f, up, rfl, hacc, ht', rfl⟩

/-- The removal of the top of a shape in a place, on records.  The record of the node
that goes stays as it is. -/
theorem Spells.unlink {t : Tree} {p : Path} {c : Color} {l r : Shape} {n : NodeId}
    (h : t.Spells (p.fill (node c l n r))) (hrb : (p.fill (node c l n r)).IsRedBlack) :
    ∃ t', t.unlink n = .ok t' ∧ t.Reshapes t' (removeAt p (node c l n r)) := by
  obtain ⟨⟨t₁, deficit⟩, hsplice, ⟨rfl, ht₁⟩ | ⟨f, up, rfl, hacc, ht₁, hremove⟩⟩ :=
    h.splice_deficit hrb
  · refine ⟨t₁, ?_, ht₁⟩
    rw [Tree.unlink, hsplice]
    rfl
  · obtain ⟨t₂, hrepair, ht₂⟩ := ht₁.spells.repairDeficit hacc
    rw [hremove]
    refine ⟨t₂, ?_, ht₁.trans ht₂ fun i hi => ?_⟩
    · rw [Tree.unlink, hsplice]
      exact hrepair
    · rwa [toList_repairDeficit, ← Path.toList_fill]

end RedBlack.Tree
